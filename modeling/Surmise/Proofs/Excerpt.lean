import Mathlib.Data.List.DropRight
import Surmise.Proofs.Layout

/-! Excerpts of a source text. The lines of a text stand between its line feeds, so the line whose number a
place carries is the text around that place. A scan comes only by places that count the text before them, and
for each of these the excerpt shows the line around the place with a caret under it. -/
namespace Surmise

namespace Text

variable {before after line : List Char}

/-! ### The line around a place -/

def withoutReturn (line : List Char) : List Char :=
  if line.getLast? = some '\r' then line.dropLast else line

def lineHead (before : List Char) : List Char := before.rtakeWhile (· ≠ '\n')

def lineTail (after : List Char) : List Char := after.takeWhile (· ≠ '\n')

/-- The text between the line feeds around a place. A carriage return directly before the closing line feed is
no part of it. -/
def lineAround (before after : List Char) : List Char :=
  if '\n' ∈ after then withoutReturn (lineHead before ++ lineTail after)
  else lineHead before ++ lineTail after

theorem forall_ne_feed (h : '\n' ∉ line) : ∀ c ∈ line, decide (c ≠ '\n') = true := by
  intro c hc
  refine decide_eq_true ?_
  rintro rfl
  exact h hc

theorem takeWhile_append_feed (line rest : List Char) :
    (line ++ '\n' :: rest).takeWhile (· ≠ '\n') = line.takeWhile (· ≠ '\n') := by
  rw [List.takeWhile_append, List.takeWhile_cons_of_neg (by decide), List.append_nil]
  split
  next hall => exact ((List.takeWhile_prefix _).eq_of_length hall).symm
  next => rfl

theorem lineHead_append_feed (line rest : List Char) : lineHead (line ++ '\n' :: rest) = lineHead rest := by
  unfold lineHead List.rtakeWhile
  rw [List.reverse_append, List.reverse_cons, List.append_assoc, List.singleton_append,
    takeWhile_append_feed]

theorem lineHead_eq_self (h : '\n' ∉ before) : lineHead before = before :=
  List.rtakeWhile_eq_self_iff.mpr (forall_ne_feed h)

theorem lineTail_eq_self (h : '\n' ∉ after) : lineTail after = after :=
  List.takeWhile_eq_self_iff.mpr (forall_ne_feed h)

theorem lineTail_append_feed (h : '\n' ∉ line) (rest : List Char) : lineTail (line ++ '\n' :: rest) = line :=
  (takeWhile_append_feed line rest).trans (lineTail_eq_self h)

/-! ### The lines of a text -/

theorem lines_feed (cs : List Char) : lines ('\n' :: cs) = [] :: lines cs := by
  rw [lines, if_pos rfl]
  nofun

theorem lines_return (cs : List Char) : lines ('\r' :: '\n' :: cs) = [] :: lines cs := by
  rw [lines]

theorem lines_cons {c : Char} {cs : List Char} (hc : c ≠ '\n') (hreturn : c = '\r' → cs.head? ≠ some '\n') :
    lines (c :: cs) = (c :: (lines cs).headD []) :: (lines cs).tail := by
  rw [lines, if_neg hc]
  · cases lines cs <;> rfl
  · rintro rest rfl rfl
    exact hreturn rfl rfl

theorem withoutReturn_cons {c : Char} (h : line = [] → c ≠ '\r') :
    withoutReturn (c :: line) = c :: withoutReturn line := by
  cases line with
  | nil => simp [withoutReturn, h rfl]
  | cons d line => simp [withoutReturn, apply_ite (c :: ·)]

/-- A text without line feeds is its only line, unless it is empty. -/
theorem lines_of_not_mem (h : '\n' ∉ line) : lines line = if line = [] then [] else [line] := by
  induction line with
  | nil => rfl
  | cons c cs ih =>
    obtain ⟨hc, hcs⟩ := not_or.mp (mt List.mem_cons.mpr h)
    have hreturn : c = '\r' → cs.head? ≠ some '\n' := fun _ hhead => hcs (List.mem_of_head? hhead)
    rw [lines_cons (Ne.symm hc) hreturn, ih hcs, if_neg (List.cons_ne_nil c cs)]
    split
    next hnil => rw [hnil]; rfl
    next => rfl

/-- The first line ends before the first line feed. -/
theorem lines_append_feed (h : '\n' ∉ line) (rest : List Char) :
    lines (line ++ '\n' :: rest) = withoutReturn line :: lines rest := by
  induction line with
  | nil => exact lines_feed rest
  | cons c cs ih =>
    obtain ⟨hc, hcs⟩ := not_or.mp (mt List.mem_cons.mpr h)
    by_cases hlast : c = '\r' ∧ cs = []
    · obtain ⟨rfl, rfl⟩ := hlast
      exact lines_return rest
    · have hreturn : c = '\r' → (cs ++ '\n' :: rest).head? ≠ some '\n' := by
        intro hr hhead
        cases cs with
        | nil => exact hlast ⟨hr, rfl⟩
        | cons d cs => exact hcs (Option.some.inj hhead ▸ List.mem_cons_self)
      rw [List.cons_append, lines_cons (Ne.symm hc) hreturn, ih hcs,
        withoutReturn_cons fun hnil hr => hlast ⟨hr, hnil⟩]
      rfl

/-- The line of a place: as many lines come before it as there are line feeds. There is none only at the end of
a text that is empty or ends in a line feed. -/
theorem lines_getElem? (before after : List Char) :
    (lines (before ++ after))[before.count '\n']? =
      if after = [] ∧ lineHead before = [] then none else some (lineAround before after) := by
  induction hn : before.count '\n' generalizing before with
  | zero =>
    rw [lineAround, lineHead_eq_self (List.count_eq_zero.mp hn)]
    by_cases hafter : '\n' ∈ after
    · obtain ⟨tail, rest, rfl, htail⟩ := List.eq_append_cons_of_mem hafter
      have hline : '\n' ∉ before ++ tail := by
        rw [List.mem_append, not_or]
        exact ⟨List.count_eq_zero.mp hn, htail⟩
      rw [← List.append_assoc, lines_append_feed hline, lineTail_append_feed htail, if_pos hafter,
        if_neg fun hnil => List.append_ne_nil_of_right_ne_nil _ (List.cons_ne_nil _ _) hnil.1]
      rfl
    · have hline : '\n' ∉ before ++ after := by
        rw [List.mem_append, not_or]
        exact ⟨List.count_eq_zero.mp hn, hafter⟩
      have hempty : before ++ after = [] ↔ after = [] ∧ before = [] :=
        List.append_eq_nil_iff.trans and_comm
      simp only [lines_of_not_mem hline, lineTail_eq_self hafter, if_neg hafter, hempty]
      split <;> rfl
  | succ n ih =>
    have hbefore : '\n' ∈ before := List.count_pos_iff.mp (by omega)
    obtain ⟨line, rest, rfl, hline⟩ := List.eq_append_cons_of_mem hbefore
    have hcount : rest.count '\n' = n := by
      simpa [List.count_append, List.count_eq_zero.mpr hline] using hn
    have hrest := ih rest hcount
    rw [List.append_assoc, List.cons_append, lines_append_feed hline, List.getElem?_cons_succ, hrest,
      lineAround, lineAround, lineHead_append_feed]

theorem length_lines_lt_iff (before after : List Char) :
    (lines (before ++ after)).length < (Location.after before).line ↔ after = [] ∧ lineHead before = [] := by
  have hline : (Location.after before).line = before.count '\n' + 1 := Nat.add_comm 1 _
  rw [hline, Nat.lt_succ_iff, ← List.getElem?_eq_none_iff, lines_getElem?]
  split
  next h => exact iff_of_true rfl h
  next h => exact iff_of_false nofun h

end Text

/-! ### The places of a scan -/

/-- The places that a scan of a text comes by, going on from the start one character after the other. -/
def Location.Within (text : List Char) (p : Location) : Prop :=
  ∃ before, before <+: text ∧ p = Location.start.advance before

theorem Location.advance_start (cs : List Char) : Location.start.advance cs = .after cs :=
  Location.after_advance [] cs

theorem Location.within_after (before rest : List Char) : (Location.after before).Within (before ++ rest) :=
  ⟨before, List.prefix_append before rest, (Location.advance_start before).symm⟩

namespace Gap

theorem Result.unterminated_prefix {taken before cs : List Char} {r : Result}
    (h : r.prepend taken = .unterminated before) (hr : ∀ tail, r = .unterminated tail → tail <+: cs) :
    before <+: taken ++ cs := by
  cases r with
  | ends gap rest => cases h
  | unterminated tail =>
    cases h
    exact (List.prefix_append_right_inj taken).mpr (hr tail rfl)
  | openComment => cases h

/-- What stands before a comment without an end is a beginning of the text. -/
theorem split_unterminated {mode : Mode} {cs before : List Char} (h : split mode cs = .unterminated before) :
    before <+: cs := by
  fun_induction split mode cs generalizing before with
  | case2 cs hopen ih =>
    cases h
    exact List.nil_prefix
  | case5 | case10 | case11 => cases h
  | _ =>
    rename_i ih
    exact Result.unterminated_prefix h fun _ => ih

end Gap

namespace Token

variable [Platform] {before cs : List Char}

theorem next_error_within {r : Rejection} (h : next (.after before) cs = .error r) :
    r.location.Within (before ++ cs) := by
  unfold next at h
  split at h
  next taken hgap =>
    cases h
    obtain ⟨rest, rfl⟩ := Gap.split_unterminated hgap
    rw [Location.after_advance, ← List.append_assoc]
    exact Location.within_after _ rest
  next =>
    cases h
    exact Location.within_after before cs
  next gap ahead hgap =>
    obtain ⟨rfl, -⟩ := Gap.split_ends hgap
    simp only [Location.after_advance] at h
    split at h
    · cases h
      rw [← List.append_assoc]
      exact Location.within_after _ ahead
    · cases h

theorem next_ok_within {rest : List Char} {t : Token} {stop : Location}
    (h : next (.after before) cs = .ok (t, stop, rest)) :
    t.location.Within (before ++ cs) ∧ ∃ taken, stop = .after (before ++ taken) ∧ cs = taken ++ rest := by
  obtain ⟨gap, rfl, hfollows, rfl⟩ := next_ok h
  refine ⟨?_, gap ++ t.text.toList, by rw [List.append_assoc], rfl⟩
  rw [hfollows.location, List.append_assoc gap, ← List.append_assoc]
  exact Location.within_after _ _

/-- Wherever a scan stands, the tokens that it finds from there on and the fault that it meets are in the text. -/
theorem scanFrom_within {fuel : Nat} {tokens : List Token} {fault : Option Rejection}
    (h : scanFrom fuel (.after before) cs = (tokens, fault)) :
    (∀ t ∈ tokens, t.location.Within (before ++ cs)) ∧ ∀ r ∈ fault, r.location.Within (before ++ cs) := by
  induction fuel generalizing before cs tokens with
  | zero =>
    cases h
    refine ⟨nofun, fun r hr => ?_⟩
    cases hr
    exact Location.within_after before cs
  | succ fuel ih =>
    unfold scanFrom at h
    split at h
    next r hnext =>
      cases h
      refine ⟨nofun, fun r hr => ?_⟩
      cases hr
      exact next_error_within hnext
    next t stop rest hnext =>
      obtain ⟨ht, taken, rfl, rfl⟩ := next_ok_within hnext
      split at h
      next heof =>
        cases h
        exact ⟨List.forall_mem_singleton.mpr ht, nofun⟩
      next hne =>
        split at h
        next tail fault htail =>
          cases h
          obtain ⟨htokens, hfault⟩ := ih htail
          rw [List.append_assoc] at htokens hfault
          exact ⟨List.forall_mem_cons.mpr ⟨ht, htokens⟩, hfault⟩

theorem scan_within (source : String) :
    (∀ t ∈ (scan source).1, t.location.Within source.toList) ∧
      ∀ r ∈ (scan source).2, r.location.Within source.toList := by
  have hscan : scanFrom (source.toList.length + 1) (.after []) source.toList =
      ((scan source).1, (scan source).2) := rfl
  exact scanFrom_within hscan

end Token

/-! ### The excerpt for a place -/

namespace Excerpt

open Text

def labelWidth (line : Nat) : Nat := max 3 (toString (line + 1)).length

def rowAbove (source : String) (p : Location) : String :=
  if p.line - 1 = 0 then ""
  else gutter (labelWidth p.line) (toString (p.line - 1)) ((lines source.toList).getD (p.line - 2) [])

theorem append_gutter_ne_empty (rows : String) (width : Nat) (label : String) (line : List Char) :
    rows ++ gutter width label line ≠ "" := by
  intro h
  have hlength := congrArg String.length h
  simp [gutter] at hlength

theorem render_after {source : String} {before after : List Char} (h : source.toList = before ++ after) :
    render source (.after before) =
      if after = [] ∧ lineHead before = [] then ""
      else
        rowAbove source (.after before) ++
          gutter (labelWidth (Location.after before).line) (toString (Location.after before).line)
            (lineAround before after) ++
          gutter (labelWidth (Location.after before).line) ""
            (List.replicate (lineHead before).length ' ' ++ ['^']) := by
  have hline : (Location.after before).line - 1 = before.count '\n' := Nat.add_sub_cancel_left 1 _
  have habove : (Location.after before).line - 2 = before.count '\n' - 1 := by omega
  have hcolumn : (Location.after before).column - 1 = (lineHead before).length := by
    rw [lineHead, List.rtakeWhile, List.length_reverse]
    exact Nat.add_sub_cancel_left 1 _
  have hshown := lines_getElem? before after
  rw [← h] at hshown
  unfold render
  simp only [hline, hcolumn, hshown]
  by_cases hend : after = [] ∧ lineHead before = []
  · simp only [if_pos hend]
  · simp only [if_neg hend, rowAbove, labelWidth, hline, habove]

end Excerpt

/-- Every token and every fault that a scan of a source finds has a place that the scan comes by. For each such
place, the excerpt is empty exactly if the source has no line of that number, that is, at the end of a source that
is empty or ends in a line feed. Otherwise it shows, after the line above, the text between the line feeds around
the byte offset of the place, and under it a caret after as many spaces as there are characters between the start
of the line and that offset. -/
theorem excerpt_points_at_place [Platform] (source : String) :
    (∀ t ∈ (Token.scan source).1, t.location.Within source.toList) ∧
    (∀ r ∈ (Token.scan source).2, r.location.Within source.toList) ∧
    ∀ p : Location, p.Within source.toList →
      ∃ before after, source.toList = before ++ after ∧ (String.ofList before).utf8ByteSize = p.offset ∧
        (Excerpt.render source p = "" ↔ (Text.lines source.toList).length < p.line) ∧
        ((Text.lines source.toList).length < p.line ↔ after = [] ∧ Text.lineHead before = []) ∧
        (Excerpt.render source p ≠ "" →
          Excerpt.render source p =
            Excerpt.rowAbove source p ++
              Excerpt.gutter (Excerpt.labelWidth p.line) (toString p.line) (Text.lineAround before after) ++
              Excerpt.gutter (Excerpt.labelWidth p.line) ""
                (List.replicate (Text.lineHead before).length ' ' ++ ['^'])) := by
  refine ⟨(Token.scan_within source).1, (Token.scan_within source).2, ?_⟩
  rintro p ⟨before, ⟨after, hsource⟩, rfl⟩
  have hrender := Excerpt.render_after hsource.symm
  have hmissing := Text.length_lines_lt_iff before after
  rw [hsource] at hmissing
  rw [Location.advance_start]
  refine ⟨before, after, hsource.symm, rfl, ?_, hmissing, ?_⟩
  · rw [hmissing, hrender]
    split
    next hend => exact iff_of_true rfl hend
    next hend => exact iff_of_false (Excerpt.append_gutter_ne_empty _ _ _ _) hend
  · intro hne
    rw [hrender] at hne ⊢
    split
    next hend => exact absurd (if_pos hend) hne
    next => rfl

/-- The place of the fault counts the accented character once in its column and twice in its offset, and the
carriage returns are not shown. -/
theorem excerpt_points_at_place_accented :
    (Token.scan "var a;\r\n  é@\r\n").2 = some ⟨.unexpectedCharacter '@', ⟨2, 4, 12⟩⟩ ∧
      Excerpt.render "var a;\r\n  é@\r\n" ⟨2, 4, 12⟩ = "  1 | var a;\n  2 |   é@\n    |    ^\n" ∧
      ∃ before after, "var a;\r\n  é@\r\n".toList = before ++ after ∧
        (String.ofList before).utf8ByteSize = 12 ∧
        "  1 | var a;\n  2 |   é@\n    |    ^\n" =
          Excerpt.rowAbove "var a;\r\n  é@\r\n" ⟨2, 4, 12⟩ ++
            Excerpt.gutter 3 "2" (Text.lineAround before after) ++
            Excerpt.gutter 3 "" (List.replicate (Text.lineHead before).length ' ' ++ ['^']) := by
  have hscan : (Token.scan "var a;\r\n  é@\r\n").2 = some ⟨.unexpectedCharacter '@', ⟨2, 4, 12⟩⟩ := by
    decide +kernel
  have hrender : Excerpt.render "var a;\r\n  é@\r\n" ⟨2, 4, 12⟩ =
      "  1 | var a;\n  2 |   é@\n    |    ^\n" := by
    decide +kernel
  obtain ⟨-, hfault, hplaces⟩ := excerpt_points_at_place "var a;\r\n  é@\r\n"
  obtain ⟨before, after, hsource, hoffset, -, -, hrows⟩ := hplaces _ (hfault _ hscan)
  rw [hrender] at hrows
  exact ⟨hscan, hrender, before, after, hsource, hoffset, hrows (by decide)⟩

end Surmise
