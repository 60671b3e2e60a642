import StackLang.Proofs.TwinSessions
import StackLang.Session.Shared

/-!
# Isolation of sessions

Sessions that share a registry find names numbered by each other, but nothing that is observed of a
session depends on these numbers. Each session of a host gives the results it would give on its own.

* `Host.Action`, `Host.play`: sessions that are set up and evaluate sources in any order, and what
  is observed of them.
* `Host.observations_isolated`: what is observed of a session is what would be observed of it alone.
-/

namespace StackLang

theorem Session.setSymbols_self (s : Session) : s.setSymbols s.machine.symbols = s := rfl

namespace Host

/-! ## Hosts over time -/

/-- A session is set up, or one of the sessions evaluates a source. -/
inductive Action where
  | add (shares : Bool) (settings : List Session.Setting)
  | eval (i : Nat) (budget : Budget) (src : Bytes)

/-- Do something, and observe the session that evaluates a source. -/
def act (h : Host) : Action → Host × Option (Nat × Session.Observation)
  | .add shares settings => (h.add shares settings, none)
  | .eval i budget src =>
    let (h, seen) := h.on i fun s =>
      let (t, error) := s.eval budget src
      (t, t.observe error)
    (h, seen.map fun o => (i, o))

/-- The host after several actions. -/
def after (h : Host) (actions : List Action) : Host := actions.foldl (fun h a => (h.act a).1) h

/-- What is observed in the course of several actions, and of which session. -/
def play (h : Host) : List Action → List (Nat × Session.Observation)
  | [] => []
  | a :: actions => (h.act a).2.toList ++ (h.act a).1.play actions

/-- What a session is told to evaluate. -/
def evalsOf (i : Nat) (actions : List Action) : List (Budget × Bytes) :=
  actions.filterMap fun
    | .eval j budget src => if j = i then some (budget, src) else none
    | .add _ _ => none

/-- What is observed of one session. -/
def seenOf (i : Nat) (seen : List (Nat × Session.Observation)) : List Session.Observation :=
  seen.filterMap fun e => if e.1 = i then some e.2 else none

/-! ## Sessions of a host -/

/-- A session of the host, with the names it finds when it is its turn. -/
def session? (h : Host) (i : Nat) : Option Session :=
  h.members[i]?.map fun member =>
    if member.shares then member.session.setSymbols h.symbols else member.session

/-- All that happens to the sessions of a host when none of them is told anything: they may find
more names. -/
structure Grows (h h' : Host) : Prop where
  symbols : h.symbols.KeptBy h'.symbols
  distinct : h.symbols.Distinct → h'.symbols.Distinct

/-- A member that is left alone finds more names at most. -/
theorem Grows.session {h h' : Host} (hgrows : h.Grows h') {i : Nat} {s : Session}
    (hmember : h'.members[i]? = h.members[i]?) (hs : h.session? i = some s)
    (hdistinct : h.symbols.Distinct) (hdistinct' : s.machine.symbols.Distinct) :
    ∃ r, h'.session? i = some (s.setSymbols r) ∧ s.machine.symbols.KeptBy r ∧ r.Distinct := by
  obtain ⟨member, hmem, rfl⟩ := Option.map_eq_some_iff.1 hs
  rw [session?, hmember, hmem, Option.map_some]
  by_cases hshares : member.shares
  · rw [if_pos hshares, if_pos hshares]
    exact ⟨h'.symbols, rfl, hgrows.symbols, hgrows.distinct hdistinct⟩
  · rw [if_neg hshares] at hdistinct' ⊢
    rw [if_neg hshares]
    exact ⟨member.session.machine.symbols, rfl, .refl _, hdistinct'⟩

end Host

theorem Machine.defineBuiltins_symbols (m : Machine) :
    m.symbols.KeptBy m.defineBuiltins.symbols ∧
      (m.symbols.Distinct → m.defineBuiltins.symbols.Distinct) := by
  unfold Machine.defineBuiltins
  generalize Builtin.all.zipIdx = l
  induction l generalizing m with
  | nil => exact ⟨.refl _, id⟩
  | cons e l ih =>
    obtain ⟨hkept, hdistinct⟩ := ih { m with
      symbols := (m.symbols.intern (.ofWord e.1.name)).1
      words := m.words.define (m.symbols.intern (.ofWord e.1.name)).2 (.builtin e.2) }
    exact ⟨(m.symbols.keptBy_intern _).trans hkept, fun hm => hdistinct (hm.intern _)⟩

/-- Setting up a session forgets no name. -/
theorem Session.new_symbols (r : Registry) (settings : List Setting) :
    r.KeptBy (new r settings).machine.symbols ∧
      (r.Distinct → (new r settings).machine.symbols.Distinct) := by
  obtain ⟨a, b, hmachine⟩ := foldl_apply_machine settings { machine := { symbols := r } }
  have hnew : (new r settings).machine =
      Machine.defineBuiltins { symbols := r, stackLimit := a, callLimit := b } := by
    simp only [new, hmachine]
  rw [hnew]
  exact Machine.defineBuiltins_symbols { symbols := r, stackLimit := a, callLimit := b }

namespace Host

theorem add_grows (h : Host) (shares : Bool) (settings : List Session.Setting) :
    h.Grows (h.add shares settings) := by
  cases shares with
  | false => exact ⟨.refl _, id⟩
  | true =>
    have hsymbols : (h.add true settings).symbols =
        (Session.new h.symbols settings).machine.symbols := by
      simp only [add, if_true]
    obtain ⟨hkept, hdistinct⟩ := Session.new_symbols h.symbols settings
    rw [← hsymbols] at hkept hdistinct
    exact ⟨hkept, hdistinct⟩

/-- An evaluation of one session may add names for all that share the registry. -/
theorem act_grows (h : Host) (a : Action) : h.Grows (h.act a).1 := by
  cases a with
  | add shares settings => exact h.add_grows shares settings
  | eval i budget src =>
    simp only [act, on]
    cases h.members[i]? with
    | none => exact ⟨.refl _, id⟩
    | some member =>
      simp only
      by_cases hshares : member.shares
      · rw [if_pos hshares, if_pos hshares]
        obtain ⟨hkept, hdistinct⟩ := (member.session.setSymbols h.symbols).eval_symbols budget src
        exact ⟨hkept, hdistinct⟩
      · rw [if_neg hshares, if_neg hshares]
        exact ⟨.refl _, id⟩

/-- Whatever is done elsewhere, a member stays as it is. -/
theorem act_members (h : Host) {i : Nat} {s : Session} (hs : h.session? i = some s) (a : Action)
    (ha : ∀ budget src, a ≠ .eval i budget src) :
    (h.act a).1.members[i]? = h.members[i]? := by
  cases a with
  | add shares settings =>
    obtain ⟨member, hmem, -⟩ := Option.map_eq_some_iff.1 hs
    have hlt : i < h.members.size := (Array.getElem?_eq_some_iff.1 hmem).1
    simp only [act, add, Array.getElem?_push]
    rw [if_neg (by omega)]
  | eval j budget src =>
    have hne : j ≠ i := by
      rintro rfl
      exact ha budget src rfl
    simp only [act, on]
    cases h.members[j]? with
    | none => rfl
    | some member =>
      simp only
      rw [Array.getElem?_setIfInBounds, if_neg hne]

/-- A session that evaluates a source is observed, and the host has the session after that. -/
theorem act_eval (h : Host) {i : Nat} {s : Session} (hs : h.session? i = some s) (budget : Budget)
    (src : Bytes) :
    (h.act (.eval i budget src)).1.session? i = some (s.eval budget src).1 ∧
      (h.act (.eval i budget src)).2 =
        some (i, (s.eval budget src).1.observe (s.eval budget src).2) := by
  obtain ⟨member, hmem, rfl⟩ := Option.map_eq_some_iff.1 hs
  have hlt : i < h.members.size := (Array.getElem?_eq_some_iff.1 hmem).1
  simp only [act, on, hmem, session?, Array.getElem?_setIfInBounds, if_pos hlt, if_true,
    Option.map_some]
  by_cases hshares : member.shares
  · simp only [if_pos hshares, Session.setSymbols_self]
    exact ⟨trivial, trivial⟩
  · simp only [if_neg hshares]
    exact ⟨trivial, trivial⟩

/-- Nothing is observed of a session that is not told anything. -/
theorem seenOf_act (h : Host) {i : Nat} (a : Action) (ha : ∀ budget src, a ≠ .eval i budget src) :
    seenOf i (h.act a).2.toList = [] := by
  cases a with
  | add shares settings => rfl
  | eval j budget src =>
    have hne : j ≠ i := by
      rintro rfl
      exact ha budget src rfl
    simp only [act, seenOf]
    cases (h.on j _).2 with
    | none => rfl
    | some o => simp [hne]

/-! ## Isolation -/

/-- A session of a host and a session on its own that are twins give the same results. -/
theorem seenOf_play {h : Host} {i : Nat} {s p : Session} (hs : h.session? i = some s)
    (hdistinct : h.symbols.Distinct) (htwins : s.Twins Coupling.same.rest p)
    (actions : List Action) :
    seenOf i (h.play actions) = p.observations (evalsOf i actions) := by
  induction actions generalizing h s p with
  | nil => rfl
  | cons a actions ih =>
    have hgrows := h.act_grows a
    have hdistinct' := hgrows.distinct hdistinct
    have hsplit : seenOf i (h.play (a :: actions)) =
        seenOf i (h.act a).2.toList ++ seenOf i ((h.act a).1.play actions) :=
      List.filterMap_append
    rw [hsplit]
    by_cases ha : ∃ budget src, a = .eval i budget src
    · obtain ⟨budget, src, rfl⟩ := ha
      obtain ⟨hs', hseen⟩ := h.act_eval hs budget src
      obtain ⟨htwins', herror⟩ := Session.eval_twins htwins budget src
      have hevals : evalsOf i (.eval i budget src :: actions) =
          (budget, src) :: evalsOf i actions := by
        simp [evalsOf]
      rw [ih hs' hdistinct' htwins', hseen, hevals, Session.observations_cons, ← herror,
        ← htwins'.observe_eq]
      simp [seenOf]
    · have hother : ∀ budget src, a ≠ .eval i budget src :=
        fun budget src heq => ha ⟨budget, src, heq⟩
      have hmember := h.act_members hs a hother
      obtain ⟨r, hs', hkept, hr⟩ :=
        hgrows.session hmember hs hdistinct htwins.machine.parallel.distinct
      have htwins' : (s.setSymbols r).Twins Coupling.same.rest p :=
        htwins.setSymbols hkept (.refl _) hr htwins.machine.parallel.distinct'
      have hevals : evalsOf i (a :: actions) = evalsOf i actions := by
        cases a with
        | add shares settings => rfl
        | eval j budget src =>
          have hne : j ≠ i := by
            rintro rfl
            exact hother budget src rfl
          simp [evalsOf, hne]
      rw [h.seenOf_act a hother, List.nil_append, hevals]
      exact ih hs' hdistinct' htwins'

theorem after_distinct {h : Host} (hdistinct : h.symbols.Distinct) (actions : List Action) :
    (h.after actions).symbols.Distinct := by
  induction actions generalizing h with
  | nil => exact hdistinct
  | cons a actions ih => exact ih ((h.act_grows a).distinct hdistinct)

/-- Take a host in which sessions have been set up and have evaluated sources, in any order and with
any limits, devices and logs, and set up one more session. Whatever the sessions evaluate from then
on, and however that is interleaved, all that is observed of the new session is what would be
observed of a session with a registry `own` that it shares with none. -/
theorem observations_isolated (names own : List Name) (earlier later : List Action) (shares : Bool)
    (settings : List Session.Setting) :
    let h := Host.after { symbols := .of names } earlier
    seenOf h.members.size ((h.add shares settings).play later) =
      (Session.new (.of own) settings).observations (evalsOf h.members.size later) := by
  intro h
  have hdistinct : h.symbols.Distinct := after_distinct (Registry.distinct_of names) earlier
  have hsession : ∃ r, r.Distinct ∧
      (h.add shares settings).session? h.members.size = some (Session.new r settings) := by
    cases shares with
    | false =>
      refine ⟨{}, Registry.distinct_empty, ?_⟩
      simp only [session?, add, Array.getElem?_push_size, Option.map_some, Bool.false_eq_true,
        if_false]
    | true =>
      refine ⟨h.symbols, hdistinct, ?_⟩
      simp only [session?, add, Array.getElem?_push_size, Option.map_some, if_true,
        Session.setSymbols_self]
  obtain ⟨r, hr, hs⟩ := hsession
  have htwins : (Session.new r settings).Twins Coupling.same.rest (Session.new (.of own) settings) :=
    Session.new_twins hr (Registry.distinct_of own) settings rfl
  exact seenOf_play hs ((h.add_grows shares settings).distinct hdistinct) htwins later

end Host

end StackLang
