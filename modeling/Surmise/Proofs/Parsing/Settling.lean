import Surmise.Proofs.Layout
import Surmise.Script.Grammar

/-! Parsers that settle. At a place before the end of input such a parser accepts or rejects, and not for
want of steps; it takes none but the tokens up to the end of input, whatever may stand after that. Two
parsers are compared at once, so that the number of steps that is allowed can be seen not to matter. -/
namespace Surmise

/-! ### Places before the end of input -/

inductive Token.Sealed : List Token → Prop
  | last {t : Token} (heof : t.kind = .eof) : Sealed [t]
  | more {t : Token} {ts : List Token} (hkind : t.kind ≠ .eof) (hts : Sealed ts) : Sealed (t :: ts)

theorem Token.Laid.sealed {before ahead : List Char} {tokens : List Token}
    (h : Laid before ahead tokens) : Sealed tokens := by
  induction h with
  | last _ heof => exact .last heof
  | more _ hkind _ ih => exact .more hkind ih

namespace Cursor

def tokens (c : Cursor) : List Token := c.current :: c.rest

def followedBy (c : Cursor) (tail : List Token) : Cursor := ⟨c.current, c.rest ++ tail⟩

def Sealed (c : Cursor) : Prop := Token.Sealed c.tokens

theorem followedBy_nil (c : Cursor) : c.followedBy [] = c := by rw [followedBy, List.append_nil]

variable {tokens : List Token} {c c' : Cursor}

theorem remaining_le (h : c'.tokens <:+ c.tokens) : c'.remaining ≤ c.remaining :=
  Nat.le_of_succ_le_succ h.length_le

structure Within (tokens : List Token) (c : Cursor) : Prop where
  closed : Token.Sealed tokens
  suffix : c.tokens <:+ tokens

theorem Within.of_suffix (hc : c.Within tokens) (h : c'.tokens <:+ c.tokens) : c'.Within tokens :=
  ⟨hc.closed, h.trans hc.suffix⟩

theorem Within.sealed (hc : c.Within tokens) : c.Sealed := by
  obtain ⟨hclosed, h⟩ := hc
  unfold Sealed
  induction hclosed with
  | last heof =>
    obtain h | h := List.suffix_cons_iff.mp h
    · rw [h]
      exact .last heof
    · cases List.suffix_nil.mp h
  | more hkind hts ih =>
    obtain h | h := List.suffix_cons_iff.mp h
    · rw [h]
      exact .more hkind hts
    · exact ih h

theorem Sealed.within (hc : c.Sealed) : c.Within c.tokens := ⟨hc, List.suffix_rfl⟩

theorem Sealed.of_suffix (hc : c.Sealed) (h : c'.tokens <:+ c.tokens) : c'.Sealed :=
  (hc.within.of_suffix h).sealed

theorem Within.rest_ne_nil (hc : c.Within tokens) (hk : c.current.kind ≠ .eof) :
    ∃ t ts, c.rest = t :: ts := by
  have hsealed := hc.sealed
  obtain ⟨t, _ | ⟨u, ts⟩⟩ := c
  · obtain heof | ⟨_, hts⟩ := hsealed
    · exact absurd heof hk
    · cases hts
  · exact ⟨u, ts, rfl⟩

structure Steps (c c' : Cursor) : Prop where
  suffix : c'.tokens <:+ c.tokens
  shorter : c'.remaining < c.remaining
  followed : ∀ tail, (c.followedBy tail).advance = c'.followedBy tail

theorem Within.tokens_advance (hc : c.Within tokens) (hk : c.current.kind ≠ .eof) :
    c.advance.tokens = c.rest := by
  obtain ⟨t, ts, hrest⟩ := hc.rest_ne_nil hk
  rw [Cursor.advance, hrest]
  rfl

theorem Within.steps (hc : c.Within tokens) (hk : c.current.kind ≠ .eof) : c.Steps c.advance := by
  obtain ⟨t, ts, hrest⟩ := hc.rest_ne_nil hk
  have hadvance : c.advance = ⟨t, ts⟩ := by rw [Cursor.advance, hrest]
  have hsuffix : c.advance.tokens <:+ c.tokens := by
    rw [hadvance, Cursor.tokens, Cursor.tokens, hrest]
    exact List.suffix_cons _ _
  refine ⟨hsuffix, ?_, fun tail => ?_⟩
  · rw [hadvance, remaining, remaining, hrest]
    exact Nat.lt_succ_self _
  · rw [hadvance, Cursor.advance, followedBy, hrest]
    rfl

end Cursor

/-! ### Settling -/

namespace Parse

variable {α β : Type}

theorem run_bind {p : Parse α} {f : α → Parse β} {c c' : Cursor} {a : α} (h : p c = .ok (a, c')) :
    (p >>= f) c = f a c' := by
  change (p c >>= fun x => f x.1 x.2) = f a c'
  rw [h]
  rfl

theorem run_bind_error {p : Parse α} {f : α → Parse β} {c : Cursor} {e : Rejection}
    (h : p c = .error e) : (p >>= f) c = .error e := by
  change (p c >>= fun x => f x.1 x.2) = .error e
  rw [h]
  rfl

/-- Whatever follows the tokens, both parsers do the same from a place: they reject, and not for want of
steps, or they give the same and get to the same place, which is among the tokens, and `Q` holds there. -/
inductive Settles (p q : Parse α) (c : Cursor) (Q : α → Cursor → Prop) : Prop
  | rejects (e : Rejection) (he : e.complaint ≠ .outOfSteps)
      (hp : ∀ tail, p (c.followedBy tail) = .error e) (hq : ∀ tail, q (c.followedBy tail) = .error e)
  | gives (a : α) (c' : Cursor) (hc' : c'.tokens <:+ c.tokens)
      (hp : ∀ tail, p (c.followedBy tail) = .ok (a, c'.followedBy tail))
      (hq : ∀ tail, q (c.followedBy tail) = .ok (a, c'.followedBy tail)) (ha : Q a c')

variable {p q : Parse α} {f g : α → Parse β} {tokens : List Token} {c : Cursor} {Q : β → Cursor → Prop}

theorem settles_pure {b : β} (h : Q b c) : Settles (pure b) (pure b) c Q :=
  .gives b c List.suffix_rfl (fun _ => rfl) (fun _ => rfl) h

theorem settles_unexpected : Settles unexpected unexpected c Q := by
  refine .rejects ⟨surprise c.current, c.current.location⟩ ?_ (fun _ => rfl) fun _ => rfl
  change surprise c.current ≠ .outOfSteps
  unfold surprise
  split <;> nofun

theorem settles_reject (complaint : Complaint) (h : complaint ≠ .outOfSteps) (location : Location) :
    Settles (reject complaint location) (reject complaint location) c Q :=
  .rejects ⟨complaint, location⟩ h (fun _ => rfl) fun _ => rfl

theorem settles_rejectHere (complaint : Complaint) (h : complaint ≠ .outOfSteps) :
    Settles (rejectHere complaint) (rejectHere complaint) c Q :=
  .rejects ⟨complaint, c.current.location⟩ h (fun _ => rfl) fun _ => rfl

namespace Settles

theorem imp {P Q : α → Cursor → Prop} (hp : Settles p q c P) (h : ∀ a c', P a c' → Q a c') :
    Settles p q c Q := by
  cases hp with
  | rejects e he hp hq => exact .rejects e he hp hq
  | gives a c' hc' hp hq ha => exact .gives a c' hc' hp hq (h a c' ha)

theorem onward {Q : α → Cursor → Prop} (hp : Settles p q c Q) :
    Settles p q c fun a c' => c'.remaining ≤ c.remaining ∧ Q a c' := by
  cases hp with
  | rejects e he hp hq => exact .rejects e he hp hq
  | gives a c' hc' hp hq ha => exact .gives a c' hc' hp hq ⟨Cursor.remaining_le hc', ha⟩

theorem outcome {Q : α → Cursor → Prop} (hp : Settles p q c Q) :
    Settles p q c fun a c' => p c = .ok (a, c') ∧ Q a c' := by
  cases hp with
  | rejects e he hp hq => exact .rejects e he hp hq
  | gives a c' hc' hp hq ha =>
    have hrun := hp []
    rw [Cursor.followedBy_nil, Cursor.followedBy_nil] at hrun
    exact .gives a c' hc' hp hq ⟨hrun, ha⟩

theorem congr {Q : α → Cursor → Prop} (hp : Settles p p c Q)
    (h : ∀ tail, q (c.followedBy tail) = p (c.followedBy tail)) : Settles q q c Q := by
  cases hp with
  | rejects e he hp _ =>
    have hq (tail : List Token) := (h tail).trans (hp tail)
    exact .rejects e he hq hq
  | gives a c' hc' hp _ ha =>
    have hq (tail : List Token) := (h tail).trans (hp tail)
    exact .gives a c' hc' hq hq ha

theorem bind {P : α → Cursor → Prop} (hc : c.Within tokens) (hp : Settles p q c P)
    (hf : ∀ a c', c'.Within tokens → c'.remaining ≤ c.remaining → P a c' → Settles (f a) (g a) c' Q) :
    Settles (p >>= f) (q >>= g) c Q := by
  cases hp with
  | rejects e he hp hq =>
    exact .rejects e he (fun tail => run_bind_error (hp tail)) fun tail => run_bind_error (hq tail)
  | gives a c' hc' hp hq ha =>
    cases hf a c' (hc.of_suffix hc') (Cursor.remaining_le hc') ha with
    | rejects e he hf hg =>
      exact .rejects e he (fun tail => (run_bind (hp tail)).trans (hf tail)) fun tail =>
        (run_bind (hq tail)).trans (hg tail)
    | gives b c'' hc'' hf hg hb =>
      exact .gives b c'' (hc''.trans hc') (fun tail => (run_bind (hp tail)).trans (hf tail))
        (fun tail => (run_bind (hq tail)).trans (hg tail)) hb

theorem rejected (hp : Settles p q c fun _ _ => False) : Settles (p >>= f) (q >>= g) c Q := by
  cases hp with
  | rejects e he hp hq =>
    exact .rejects e he (fun tail => run_bind_error (hp tail)) fun tail => run_bind_error (hq tail)
  | gives a c' hc' hp hq ha => exact ha.elim

/-! ### Looking at the current token -/

theorem look {a : α} (hp : ∀ tail, p (c.followedBy tail) = .ok (a, c.followedBy tail))
    (h : Settles (f a) (g a) c Q) : Settles (p >>= f) (p >>= g) c Q := by
  cases h with
  | rejects e he hf hg =>
    exact .rejects e he (fun tail => (run_bind (hp tail)).trans (hf tail)) fun tail =>
      (run_bind (hp tail)).trans (hg tail)
  | gives b c' hc' hf hg hb =>
    exact .gives b c' hc' (fun tail => (run_bind (hp tail)).trans (hf tail))
      (fun tail => (run_bind (hp tail)).trans (hg tail)) hb

theorem current {f g : Token → Parse β} (h : Settles (f c.current) (g c.current) c Q) :
    Settles (Parse.current >>= f) (Parse.current >>= g) c Q :=
  look (fun _ => rfl) h

theorem kind {f g : Token.Kind → Parse β} (h : Settles (f c.current.kind) (g c.current.kind) c Q) :
    Settles (Parse.kind >>= f) (Parse.kind >>= g) c Q :=
  look (fun _ => rfl) h

theorem location {f g : Location → Parse β}
    (h : Settles (f c.current.location) (g c.current.location) c Q) :
    Settles (Parse.location >>= f) (Parse.location >>= g) c Q :=
  look (fun _ => rfl) h

theorem atMark {m : Punctuator} {f g : Bool → Parse β}
    (h : Settles (f (c.current.kind = .punctuator m)) (g (c.current.kind = .punctuator m)) c Q) :
    Settles (Parse.atMark m >>= f) (Parse.atMark m >>= g) c Q :=
  look (fun _ => rfl) h

theorem atEnd {f g : Bool → Parse β}
    (h : Settles (f (c.current.kind = .eof)) (g (c.current.kind = .eof)) c Q) :
    Settles (Parse.atEnd >>= f) (Parse.atEnd >>= g) c Q :=
  look (fun _ => rfl) h

/-! ### Taking the current token -/

variable {k : Token.Kind}

theorem taken {p : Parse Token} (hsteps : c.Steps c.advance)
    (hp : ∀ tail, p (c.followedBy tail) = .ok (c.current, (c.followedBy tail).advance)) :
    Settles p p c fun t c' => t = c.current ∧ c'.remaining < c.remaining ∧ c' = c.advance := by
  have hrun (tail : List Token) :
      p (c.followedBy tail) = .ok (c.current, c.advance.followedBy tail) := by
    rw [hp, hsteps.followed]
  exact .gives c.current c.advance hsteps.suffix hrun hrun ⟨rfl, hsteps.shorter, rfl⟩

section

variable (hc : c.Within tokens)
include hc

theorem advance {f g : Token → Parse β} (hk : c.current.kind ≠ .eof)
    (h : ∀ c', c'.Within tokens → c'.remaining < c.remaining →
      Settles (f c.current) (g c.current) c' Q) :
    Settles (Parse.advance >>= f) (Parse.advance >>= g) c Q := by
  refine bind hc (taken (hc.steps hk) fun _ => rfl) fun t c' hc' _ ht => ?_
  rw [ht.1]
  exact h c' hc' ht.2.1

theorem expected (hk : k ≠ .eof) :
    Settles (Parse.expect k) (Parse.expect k) c fun t c' =>
      (t = c.current ∧ c'.remaining < c.remaining ∧ c' = c.advance) ∧ c.current.kind = k := by
  by_cases hcurrent : c.current.kind = k
  · exact (taken (hc.steps (hcurrent ▸ hk)) fun _ => if_pos hcurrent).imp fun _ _ h => ⟨h, hcurrent⟩
  · exact settles_unexpected.congr fun _ => if_neg hcurrent

theorem expect {f g : Token → Parse β} (hk : k ≠ .eof)
    (h : ∀ c', c'.Within tokens → c'.remaining < c.remaining → c.current.kind = k →
      Settles (f c.current) (g c.current) c' Q) :
    Settles (Parse.expect k >>= f) (Parse.expect k >>= g) c Q := by
  refine bind hc (expected hc hk) fun t c' hc' _ ht => ?_
  rw [ht.1.1]
  exact h c' hc' ht.1.2.1 ht.2

theorem consumed (hk : k ≠ .eof) :
    Settles (Parse.consume k) (Parse.consume k) c fun b c' =>
      (b = true ∧ c'.remaining < c.remaining ∧ c' = c.advance) ∧ c.current.kind = k ∨
        b = false ∧ c' = c := by
  by_cases hcurrent : c.current.kind = k
  · have hsteps := hc.steps (hcurrent ▸ hk)
    have hrun (tail : List Token) :
        Parse.consume k (c.followedBy tail) = .ok (true, c.advance.followedBy tail) := by
      rw [← hsteps.followed]
      exact if_pos hcurrent
    exact .gives true c.advance hsteps.suffix hrun hrun (.inl ⟨⟨rfl, hsteps.shorter, rfl⟩, hcurrent⟩)
  · have hrun (tail : List Token) :
        Parse.consume k (c.followedBy tail) = .ok (false, c.followedBy tail) := if_neg hcurrent
    exact .gives false c List.suffix_rfl hrun hrun (.inr ⟨rfl, rfl⟩)

theorem consume {f g : Bool → Parse β} (hk : k ≠ .eof)
    (htaken : ∀ c', c'.Within tokens → c'.remaining < c.remaining → Settles (f true) (g true) c' Q)
    (hleft : Settles (f false) (g false) c Q) :
    Settles (Parse.consume k >>= f) (Parse.consume k >>= g) c Q := by
  refine bind hc (consumed hc hk) fun b c' hc' _ hb => ?_
  obtain ⟨⟨rfl, hlt, -⟩, -⟩ | ⟨rfl, rfl⟩ := hb
  · exact htaken c' hc' hlt
  · exact hleft

theorem semicolon {f g : Unit → Parse β}
    (h : ∀ c', c'.Within tokens → c'.remaining ≤ c.remaining → Settles (f ()) (g ()) c' Q) :
    Settles (Parse.semicolon >>= f) (Parse.semicolon >>= g) c Q := by
  suffices hp : Settles Parse.semicolon Parse.semicolon c fun _ _ => True from
    bind hc hp fun _ c' hc' hle _ => h c' hc' hle
  by_cases hmark : c.current.kind = .punctuator .semicolon
  · have hsteps := hc.steps (hmark ▸ nofun)
    have hrun (tail : List Token) :
        Parse.semicolon (c.followedBy tail) = .ok ((), c.advance.followedBy tail) := by
      rw [← hsteps.followed]
      exact if_pos hmark
    exact .gives () c.advance hsteps.suffix hrun hrun trivial
  have hrun (tail : List Token) : Parse.semicolon (c.followedBy tail) =
      if endsStatement c.current then .ok ((), c.followedBy tail) else unexpected (c.followedBy tail) :=
    if_neg hmark
  by_cases hends : endsStatement c.current = true
  · have hends (tail : List Token) := (hrun tail).trans (if_pos hends)
    exact .gives () c List.suffix_rfl hends hends trivial
  · exact settles_unexpected.congr fun tail => (hrun tail).trans (if_neg hends)

end

end Settles
end Parse
end Surmise
