import Surmise.Proofs.Json.Reading
import Surmise.Proofs.Json.Writing

/-! Writing a document and reading the text back gives the document again. Both functions only make
objects: what was there before stays, and nothing is reported. -/
namespace Surmise

open Eval

structure Session.Quiet (s t : Session) : Prop where
  heap : s.heap.Prolongs t.heap
  diagnostics : t.diagnostics = s.diagnostics

namespace Session.Quiet

theorem refl (s : Session) : s.Quiet s := ⟨.refl s.heap, rfl⟩

theorem trans {s t u : Session} (h₁ : s.Quiet t) (h₂ : t.Quiet u) : s.Quiet u :=
  ⟨h₁.heap.trans h₂.heap, h₂.diagnostics.trans h₁.diagnostics⟩

end Session.Quiet

theorem run_allocate (r : Record) (s : Session) :
    ∃ id t, Eval.allocate r s = (.done id, t) ∧ s.Quiet t ∧ id.index < t.heap.size ∧
      t.heap.record id = r := by
  refine ⟨⟨s.heap.size⟩, _, rfl, ⟨s.heap.prolongs_allocate r, rfl⟩, ?_, ?_⟩
  · exact Nat.lt_of_lt_of_eq (Nat.lt_succ_self _) (s.heap.size_allocate r).symm
  · exact (s.heap.record_allocate r ⟨s.heap.size⟩).trans (if_pos rfl)

theorem run_newObject (r : Record) (s : Session) :
    ∃ id t, newObject r s = (.done (.object id), t) ∧ s.Quiet t ∧ id.index < t.heap.size ∧
      t.heap.record id = r := by
  obtain ⟨id, t, ha, ht⟩ := run_allocate r s
  exact ⟨id, t, run_bind ha, ht⟩

/-! ### Values made from documents -/

namespace Json

def Builds (doc : Json) : Prop :=
  ∀ s, ∃ v t, toValue doc s = (.done v, t) ∧ s.Quiet t ∧ t.heap.Holds doc v

theorem itemValues_builds {items : List Json} (h : ∀ item ∈ items, Builds item) (s : Session) :
    ∃ vs t, itemValues items s = (.done vs, t) ∧ s.Quiet t ∧ List.Forall₂ t.heap.Holds items vs := by
  induction items generalizing s with
  | nil => exact ⟨[], s, rfl, .refl s, .nil⟩
  | cons item items ih =>
    obtain ⟨v, t, hv, hq, hheld⟩ := h item (by simp) s
    obtain ⟨vs, u, hvs, hq', hall⟩ := ih (fun item hm => h item (by simp [hm])) t
    refine ⟨v :: vs, u, ?_, hq.trans hq', .cons (hheld.mono hq'.heap) hall⟩
    rw [itemValues, run_bind hv, run_bind hvs]
    rfl

theorem memberValues_builds {members : List (String × Json)} (h : ∀ m ∈ members, Builds m.2)
    (s : Session) :
    ∃ es t, memberValues members s = (.done es, t) ∧ s.Quiet t ∧
      List.Forall₂ (fun m e => e.1 = m.1 ∧ t.heap.Holds m.2 e.2) members es := by
  induction members generalizing s with
  | nil => exact ⟨[], s, rfl, .refl s, .nil⟩
  | cons m members ih =>
    obtain ⟨v, t, hv, hq, hheld⟩ := h m (by simp) s
    obtain ⟨es, u, hes, hq', hall⟩ := ih (fun m hm => h m (by simp [hm])) t
    refine ⟨(m.1, v) :: es, u, ?_, hq.trans hq', .cons ⟨rfl, hheld.mono hq'.heap⟩ hall⟩
    rw [memberValues, run_bind hv, run_bind hes]
    rfl

theorem Regular.builds {doc : Json} (h : doc.Regular) : Builds doc := by
  induction h with
  | null | bool | number | string => exact fun s => ⟨_, s, rfl, .refl s, by constructor⟩
  | @array items hl _ ih =>
    intro s
    obtain ⟨vs, t, hvs, hq, hall⟩ := itemValues_builds ih s
    obtain ⟨id, u, hnew, hq', hid, hrecord⟩ := run_newObject (.ofList vs) t
    have hn : vs.length ≤ maxWalkedLength := hall.length_eq ▸ hl
    have hfills : (u.heap.record id).Fills vs := hrecord ▸ Record.fills_ofList hn
    refine ⟨.object id, u, ?_, hq.trans hq', ?_⟩
    · rw [toValue, run_bind hvs, hnew]
    · exact .of_fills hid hfills hn (hall.imp fun _ _ hv => hv.mono hq'.heap)
  | @object members hk _ ih =>
    intro s
    obtain ⟨es, t, hes, hq, hall⟩ := memberValues_builds ih s
    obtain ⟨id, u, hnew, hq', hid, hrecord⟩ := run_newObject (.ofEntries es) t
    have hkeys := map_fst_eq_of_forall₂ (R := t.heap.Holds) hall
    have hlists : (u.heap.record id).Lists es := hrecord ▸ Record.lists_ofEntries (hkeys ▸ hk)
    refine ⟨.object id, u, ?_, hq.trans hq', ?_⟩
    · rw [toValue, run_bind hes, hnew]
    · exact .of_lists hid hlists (hall.imp fun _ _ hv => ⟨hv.1, hv.2.mono hq'.heap⟩)

theorem stringify_held [Platform] (call : Invoke) {s : Session} {doc : Json} {v : Value} {depth : Nat}
    (hv : s.heap.Holds doc v) (hf : doc.Fits depth) (hd : depth < nestingLimit) :
    ∃ t, stringify call v .undefined .undefined s = (.done (.string doc.render), t) ∧ s.Quiet t := by
  have hfuel : depth < s.heap.size + hookBudget := by
    unfold nestingLimit at hd
    unfold hookBudget
    omega
  have hstyle : style? s.heap .undefined .undefined = some .compact := rfl
  have hroot : rootText s.heap v .undefined .undefined = .ok (some doc.render) := by
    unfold rootText
    rw [hstyle]
    exact write_held (hv.mono (s.heap.prolongs_allocate _)) hf hfuel "" (by simp [Below])
  refine ⟨{ s with store := holding s.store v (some .compact) }, ?_, ⟨s.heap.prolongs_allocate _, rfl⟩⟩
  rw [run_stringify call v .undefined rfl (by rw [hroot]; exact nofun), hroot, hstyle]
  rfl

theorem parseText_builds [Platform] (call : Invoke) {text : String} {doc : Json}
    (hp : Platform.readJson text.toList = .ok doc) (hr : doc.Regular) (s : Session) :
    ∃ v t, parseText call .undefined text s = (.done v, t) ∧ s.Quiet t ∧ t.heap.Holds doc v := by
  obtain ⟨v, t, hv, hq, hheld⟩ := hr.builds s
  refine ⟨v, t, ?_, hq, hheld⟩
  unfold parseText
  rw [hp]
  exact hv

end Json

/-! ### The two functions -/

theorem callable?_prolongs {h k : Heap} (hk : h.Prolongs k) {v : Value} {c : Callable}
    (hc : h.callable? v = some c) : k.callable? v = some c := by
  cases v with
  | object id =>
    have hid : id.index < h.size := by
      by_contra hge
      rw [Heap.callable?, Heap.record_of_size_le (Nat.not_lt.mp hge)] at hc
      cases hc
    exact (congrArg Record.callable (hk.record id hid)).trans hc
  | _ => cases hc

/-- A value that is a document, written by one built-in function and read by the other: both complete,
the result is the same document, and nothing is reported. -/
theorem parse_stringify_round_trip [Platform] [Platform.Recovers] (host : Host) (contexts : Nat)
    (options : CallOptions) {s : Session} {stringify parse receiver v : Value} {doc : Json} {depth : Nat}
    (hs : s.heap.callable? stringify = some (.builtin .jsonStringify))
    (hp : s.heap.callable? parse = some (.builtin .jsonParse)) (hr : receiver.isUnknown = false)
    (hv : s.heap.Holds doc v) (hf : doc.Fits depth) (hd : depth < Json.nestingLimit) :
    ∃ t u w doc',
      invoke host (contexts + 1) stringify receiver [v] options s = (.done (.string doc.render), t) ∧
      invoke host (contexts + 1) parse receiver [.string doc.render] options t = (.done w, u) ∧
      u.heap.Holds doc' w ∧ doc.Same doc' ∧ u.heap.Holds doc v ∧ u.diagnostics = s.diagnostics := by
  obtain ⟨doc', hsame, hparse⟩ := Platform.Recovers.read_render hf hd hv.regular
  obtain ⟨t, ht, hq⟩ := Json.stringify_held (relay host (invoke host contexts) 16) hv hf hd
  obtain ⟨w, u, hu, hq', hw⟩ := Json.parseText_builds (relay host (invoke host contexts) 16) hparse
    (hsame.regular hv.regular) t
  refine ⟨t, u, w, doc', ?_, ?_, hw, hsame, hv.mono (hq.trans hq').heap, (hq.trans hq').diagnostics⟩
  · rw [invoke_builtin host contexts receiver [v] options hs]
    exact run_guarded hr (by simp [hv.isUnknown]) ht
  · rw [invoke_builtin host contexts receiver [.string doc.render] options
      (callable?_prolongs hq.heap hp)]
    exact run_guarded hr rfl hu

def Json.sample : Json :=
  .object [("\"\n", .array [.number (.real (-0.0)), .number (.real 1.5), .string "\x01\\😀"]),
    ("toJSON", .null)]

def Heap.sample : Heap :=
  ⟨#[.ofCallable (.builtin .jsonStringify), .ofCallable (.builtin .jsonParse),
    .ofList [.number (-0.0), .number 1.5, .string "\x01\\😀"],
    .ofEntries [("\"\n", .object ⟨2⟩), ("toJSON", .null)]]⟩

def Session.sample : Session where
  options := {}
  store := { heap := .sample }
  globalObject := ⟨3⟩
  globalContext := ⟨[], [], .undefined, false, false, ""⟩

theorem Json.fits_sample : Json.sample.Fits 2 := by
  have hzero : Number.text (-0.0) = "0" := by decide +kernel
  have hhalf : Number.text 1.5 = "1.5" := by decide +kernel
  have hz : Number.Recovered (-0.0) :=
    ⟨by decide +kernel, .natural 0, by rw [hzero]; rfl, by decide +kernel⟩
  have hh : Number.Recovered 1.5 :=
    ⟨by decide +kernel, .real 1.5, by rw [hhalf]; rfl, by decide +kernel⟩
  refine .object fun m hm => ?_
  simp only [List.mem_cons, List.not_mem_nil, or_false] at hm
  rcases hm with rfl | rfl
  · refine .array fun item hi => ?_
    simp only [List.mem_cons, List.not_mem_nil, or_false] at hi
    rcases hi with rfl | rfl | rfl
    · exact .number hz
    · exact .number hh
    · exact .string _
  · exact .null

theorem Heap.holds_sample : Heap.sample.Holds .sample (.object ⟨3⟩) := by
  have hlist : (Heap.sample.record ⟨2⟩).Fills [.number (-0.0), .number 1.5, .string "\x01\\😀"] :=
    Record.fills_ofList (by decide)
  have hobject : (Heap.sample.record ⟨3⟩).Lists [("\"\n", .object ⟨2⟩), ("toJSON", .null)] :=
    Record.lists_ofEntries (by decide)
  have hinner := Holds.of_fills (by decide) hlist (by decide)
    (.cons (.number (.real (-0.0))) (.cons (.number (.real 1.5)) (.cons (.string _) .nil)))
  exact .of_lists (by decide) hobject (.cons ⟨rfl, hinner⟩ (.cons ⟨rfl, .null⟩ .nil))

theorem parse_stringify_round_trip_escapes :
    Heap.sample.callable? (.object ⟨0⟩) = some (.builtin .jsonStringify) ∧
      Heap.sample.callable? (.object ⟨1⟩) = some (.builtin .jsonParse) ∧
      Heap.sample.Holds .sample (.object ⟨3⟩) ∧ Json.sample.Fits 2 ∧
      ∃ t u w doc',
        invoke .standard 1 (.object ⟨0⟩) .undefined [.object ⟨3⟩] {} .sample =
          (.done (.string Json.sample.render), t) ∧
        invoke .standard 1 (.object ⟨1⟩) .undefined [.string Json.sample.render] {} t = (.done w, u) ∧
        u.heap.Holds doc' w ∧ Json.sample.Same doc' ∧ u.heap.Holds .sample (.object ⟨3⟩) ∧
        u.diagnostics = Session.sample.diagnostics :=
  ⟨rfl, rfl, Heap.holds_sample, Json.fits_sample, parse_stringify_round_trip .standard 0 {} rfl rfl rfl
    Heap.holds_sample Json.fits_sample (by decide)⟩

end Surmise
