import Mathlib
import StackLang.Command
import StackLang.Proofs.Completion
import StackLang.Proofs.Halting
import StackLang.Proofs.Readback

/-!
# Programs over several lines

The lines of an interactive session are cut into programs. Each program takes lines as long as they
are incomplete, and no longer; the next one starts with the line behind it. What is read that way is
not incomplete for the session that evaluates it either, whatever names and instructions are in it.

* `Op.run_final`: no instruction ends with the fault of an incomplete source.
* `Session.eval_final`: a source that is not incomplete is not so in any session.
* `Command.Segment`, `Command.Unfinished`: the lines of a program, and those that need more lines.
* `Command.programs_segments`: what the programs in a list of lines are.
* `Command.Repl.lines_session`: an interactive session evaluates these programs in their order.
* `Command.programs_shortest_groups`: all of it together.
-/

namespace StackLang

/-! ## Errors of evaluations -/

/-- The effect is not a fault that more text could mend. -/
def Effect.Final : Effect → Prop
  | .fault f _ => f.incomplete = false
  | _ => True

namespace Machine

theorem push_final (m : Machine) (v : Value) : (m.push v).Final := by
  unfold push
  split
  · exact rfl
  · trivial

theorem dispatch_final (m : Machine) (c : Code) : (m.dispatch c).Final := by
  cases c with
  | block start =>
    simp only [dispatch]
    split
    · exact rfl
    · trivial
  | builtin i =>
    simp only [dispatch]
    cases Builtin.ofIndex? i with
    | none => exact rfl
    | some b =>
      cases b with
      | print =>
        cases m.stack.items with
        | nil => exact rfl
        | cons v rest => trivial
      | nl => trivial
      | stack => trivial
  | other tag address => exact rfl

theorem popIntegers_final (m : Machine) (word : String) {f : Int64 → Int64 → Machine → Effect}
    (hf : ∀ a b m', (f a b m').Final) : (m.popIntegers word f).Final := by
  unfold popIntegers
  split
  · split
    · exact hf _ _ _
    · exact rfl
  · exact rfl

theorem withLoop_final (m : Machine) {f : Loop → List Loop → Effect}
    (hf : ∀ l loops, (f l loops).Final) : (m.withLoop f).Final := by
  unfold withLoop
  split
  · exact hf _ _
  · exact rfl

end Machine

open Machine in
theorem Op.run_final (m : Machine) (op : Op) : (op.run m).Final := by
  cases op with
  | push v => exact m.push_final v
  | call h =>
    simp only [run]
    split
    · exact m.dispatch_final _
    · exact rfl
  | ret =>
    simp only [run]
    split
    · trivial
    · exact rfl
  | define =>
    simp only [run, runDefine]
    repeat' split
    all_goals trivial
  | add =>
    simp only [run, runAdd]
    split
    · split
      · exact push_final _ _
      · exact push_final _ _
      · exact rfl
    · exact rfl
  | arith f => exact m.popIntegers_final _ fun _ _ _ => push_final _ _
  | div =>
    simp only [run]
    refine m.popIntegers_final _ fun a b m' => ?_
    split
    · exact rfl
    · exact push_final _ _
  | compare f => exact m.popIntegers_final _ fun _ _ _ => push_final _ _
  | exec =>
    simp only [run, runExec]
    split
    · split
      · exact dispatch_final _ _
      · exact rfl
    · exact rfl
  | loopEnter =>
    simp only [run, runLoopEnter]
    repeat' split
    all_goals trivial
  | loopCond => exact m.withLoop_final fun _ _ => dispatch_final _ _
  | loopExit target =>
    refine m.withLoop_final fun l loops => ?_
    repeat' split
    all_goals trivial
  | loopBody => exact m.withLoop_final fun _ _ => dispatch_final _ _
  | jump target => trivial
  | other c => trivial
  | eq | dup | connect f =>
    simp only [run]
    split
    · exact push_final _ _
    · exact rfl
  | drop | swap | rot | unrot | not | select =>
    simp only [run]
    split
    · trivial
    · exact rfl

/-- Whether a source is incomplete depends on nothing but its text. -/
theorem incomplete_iff_verdict {src : Bytes} :
    incomplete src = true ↔ ∃ e, verdict src = some e ∧ e.cause.incomplete = true := by
  simp only [incomplete_iff_error {}, compile_eq_error_iff]

namespace Session

theorem StepFails.final {s t : Session} {e : Error} (h : s.StepFails t e) :
    e.incomplete = false := by
  cases h with
  | @fault op u f m _ _ hrun =>
    have hfinal := op.run_final u.machine
    rw [hrun] at hfinal
    exact hfinal
  | output => rfl

theorem Halts.final {s t : Session} {budget : Budget} {src : Bytes} {e : Error}
    (h : s.Halts budget src t e) (hsrc : incomplete src = false) : e.incomplete = false := by
  cases h with
  | @source d e t hcompile _ =>
    rcases Draft.compile_verdict { symbols := s.machine.symbols, ops := s.machine.program.ops } src
      with ⟨program, hok, -⟩ | ⟨e', herror, hverdict⟩
    · rw [hcompile] at hok
      cases hok
    · rw [hcompile] at herror
      cases herror
      rw [← Bool.not_eq_true, incomplete_iff_verdict] at hsrc
      exact Bool.eq_false_iff.2 fun hincomplete => hsrc ⟨e, hverdict, hincomplete⟩
  | run _ h =>
    cases h with
    | step _ _ _ h => exact h.final
    | budget => rfl
  | flush => rfl

theorem eval_final (s : Session) (budget : Budget) {src : Bytes} (hsrc : incomplete src = false)
    {e : Error} (h : (s.eval budget src).2 = some e) : e.incomplete = false := by
  have hstops := s.run_stops budget src
  unfold eval conclude guarded at h
  generalize s.run budget src = ended at hstops h
  obtain ⟨t, a⟩ := ended
  cases hstops with
  | none => cases h
  | halt hhalts =>
    cases h
    obtain ⟨u, hhalts⟩ := hhalts
    exact hhalts.final hsrc
  | panic v =>
    cases h
    rfl

end Session

namespace Command

/-! ## Groups of lines -/

/-- Lines that need more lines: so do all of them that were read first. -/
def Unfinished (lines : List Bytes) : Prop :=
  ∀ part, part <+: lines → part ≠ [] → incomplete (Bytes.join (lit "\n") part) = true

/-- The lines of a program: of the groups that start with the first of them, this is the shortest
that is not incomplete. -/
structure Segment (group : List Bytes) : Prop where
  ne_nil : group ≠ []
  complete_iff : ∀ part, part <+: group → part ≠ [] →
    (incomplete (Bytes.join (lit "\n") part) = false ↔ part = group)

theorem unfinished_nil : Unfinished [] := by
  intro part hpart hne
  exact absurd (List.prefix_nil.1 hpart) hne

section

variable {before : List Bytes} (h : Unfinished before) (line : Bytes)

include h

/-- Lines that need more are not empty, so that the next line gets a line break in front of it. -/
theorem joinLine_join : joinLine (Bytes.join (lit "\n") before) line =
    Bytes.join (lit "\n") (before ++ [line]) := by
  cases before with
  | nil => rfl
  | cons t ts =>
    have hincomplete := h (t :: ts) (List.prefix_refl _) (List.cons_ne_nil t ts)
    have hne : (Bytes.join (lit "\n") (t :: ts)).isEmpty = false := by
      rw [List.isEmpty_eq_false_iff]
      intro hnil
      rw [hnil] at hincomplete
      exact absurd hincomplete (by decide +kernel)
    rw [joinLine, hne, List.cons_append, Bytes.join_cons, Bytes.join_cons]
    simp
    rfl

theorem Unfinished.concat
    (hmore : incomplete (Bytes.join (lit "\n") (before ++ [line])) = true) :
    Unfinished (before ++ [line]) := by
  intro part hpart hne
  rcases List.prefix_concat_iff.1 hpart with rfl | hpart
  · exact hmore
  · exact h part hpart hne

theorem Unfinished.segment
    (hdone : incomplete (Bytes.join (lit "\n") (before ++ [line])) = false) :
    Segment (before ++ [line]) := by
  refine ⟨by simp, ?_⟩
  intro part hpart hne
  rcases List.prefix_concat_iff.1 hpart with rfl | hpart
  · exact iff_of_true hdone rfl
  · refine iff_of_false (by simp [h part hpart hne]) ?_
    rintro rfl
    simpa using hpart.length_le

/-- The lines behind those of a program under way, and these. -/
theorem programs_segments (lines : List Bytes) :
    ∃ (groups : List (List Bytes)) (rest : List Bytes), groups.flatten ++ rest = before ++ lines ∧
      programs (Bytes.join (lit "\n") before) lines = groups.map (Bytes.join (lit "\n")) ∧
      (∀ group ∈ groups, Segment group) ∧ Unfinished rest := by
  induction lines generalizing before with
  | nil => exact ⟨[], before, by simp, rfl, by simp, h⟩
  | cons line lines ih =>
    have hjoin := joinLine_join h line
    cases hgroup : incomplete (Bytes.join (lit "\n") (before ++ [line])) with
    | true =>
      obtain ⟨groups, rest, hcover, hprograms, hgroups, hrest⟩ := ih (h.concat line hgroup)
      refine ⟨groups, rest, by simpa using hcover, ?_, hgroups, hrest⟩
      simp only [programs, readLine, hjoin, hgroup, if_true]
      exact hprograms
    | false =>
      obtain ⟨groups, rest, hcover, hprograms, hgroups, hrest⟩ := ih unfinished_nil
      refine ⟨(before ++ [line]) :: groups, rest, by simpa using hcover, ?_, ?_, hrest⟩
      · have hreading : readLine (Bytes.join (lit "\n") before) line =
            .program (Bytes.join (lit "\n") (before ++ [line])) := by
          simp [readLine, hjoin, hgroup]
        rw [programs, hreading, List.map_cons, ← hprograms]
        rfl
      · exact List.forall_mem_cons.2 ⟨h.segment line hgroup, hgroups⟩

end

/-! ## The interactive session -/

/-- The session after a program. A blank one is passed over. -/
def evaluate (o : Options) (s : Session) (src : Bytes) : Session :=
  if Text.isBlank src then s else (s.eval (budget o) src).1.clear

namespace Repl

theorem line_more {r : Repl} {text pending : Bytes} (h : readLine r.pending text = .more pending)
    (o : Options) : r.line o text = ({ r with pending }, none) := by
  simp only [line, take, h]

theorem settle_session (r : Repl) (late : Bool) (ended : Session × Option Error) :
    (r.settle late ended).1.session = ended.1.clear ∧
      (r.settle late ended).1.pending = r.pending ∧
      (late = false → (r.settle late ended).2 = none) := by
  obtain ⟨t, _ | e⟩ := ended
  · exact ⟨rfl, rfl, fun _ => rfl⟩
  · refine ⟨rfl, rfl, ?_⟩
    rintro rfl
    rfl

theorem line_program {r : Repl} {text src : Bytes} (h : readLine r.pending text = .program src)
    (o : Options) : (r.line o text).1.session = evaluate o r.session src ∧
      (r.line o text).1.pending = [] ∧ (expired o = false → (r.line o text).2 = none) := by
  cases hblank : Text.isBlank src with
  | true => simp [line, take, h, evaluate, hblank]
  | false =>
    have hline : r.line o text = { r with pending := [], history := r.history.add src }.settle
        (expired o) (r.session.eval (budget o) src) := by
      simp [line, take, h, hblank]
    rw [hline, evaluate, hblank]
    exact settle_session _ _ _

theorem lines_session (r : Repl) (o : Options) (lines : List Bytes) :
    ∃ done, done <+: programs r.pending lines ∧
      (r.lines o lines).1.session = done.foldl (evaluate o) r.session ∧
      (expired o = false → done = programs r.pending lines) := by
  induction lines generalizing r with
  | nil => exact ⟨[], List.nil_prefix, rfl, fun _ => rfl⟩
  | cons text texts ih =>
    rw [Repl.lines, programs]
    cases hreading : readLine r.pending text with
    | more pending =>
      rw [line_more (r := r.ask) hreading]
      exact ih { r.ask with pending }
    | program src =>
      obtain ⟨hsession, hpending, hlast⟩ := line_program (r := r.ask) hreading o
      generalize r.ask.line o text = ended at hsession hpending hlast
      obtain ⟨r', _ | e⟩ := ended
      · obtain ⟨done, hdone, hfold, hall⟩ := ih r'
        rw [hpending] at hdone hall
        rw [hsession] at hfold
        refine ⟨src :: done, List.cons_prefix_cons.2 ⟨rfl, hdone⟩, hfold, ?_⟩
        intro hexpired
        rw [hall hexpired]
      · -- An error ends the session here, and only the time can have done that.
        refine ⟨[src], List.cons_prefix_cons.2 ⟨rfl, List.nil_prefix⟩, hsession, ?_⟩
        intro hexpired
        cases hlast hexpired

end Repl

/-- The programs in a list of lines are groups of lines one behind the other. Each is the shortest
group from its first line on that is not incomplete, and what is left over at the end would need
more lines. No session fails to evaluate one of the programs because it is incomplete. Where lines
are read and evaluated, it is these programs that are evaluated, in their order, and all of them
unless the time is over. -/
theorem programs_shortest_groups (lines : List Bytes) :
    (∃ (groups : List (List Bytes)) (rest : List Bytes), groups.flatten ++ rest = lines ∧
      programs [] lines = groups.map (Bytes.join (lit "\n")) ∧
      (∀ group ∈ groups, Segment group) ∧ Unfinished rest) ∧
    (∀ src ∈ programs [] lines, ∀ (s : Session) (budget : Budget) (e : Error),
      (s.eval budget src).2 = some e → e.incomplete = false) ∧
    ∀ (r : Repl) (o : Options), r.pending = [] → ∃ done, done <+: programs [] lines ∧
      (r.lines o lines).1.session = done.foldl (evaluate o) r.session ∧
      (expired o = false → done = programs [] lines) := by
  obtain ⟨groups, rest, hcover, hprograms, hgroups, hrest⟩ := programs_segments unfinished_nil lines
  refine ⟨⟨groups, rest, hcover, hprograms, hgroups, hrest⟩, ?_, ?_⟩
  · intro src hsrc s budget e he
    obtain ⟨group, hgroup, rfl⟩ := List.mem_map.1 (hprograms ▸ hsrc)
    have hsegment := hgroups group hgroup
    exact s.eval_final budget
      ((hsegment.complete_iff group (List.prefix_refl _) hsegment.ne_nil).2 rfl) he
  · intro r o hpending
    rw [← hpending]
    exact r.lines_session o lines

/-- An empty line, a string with an empty line in it, a brace that is closed once too often, and a
string that nothing closes. -/
def openLines : List Bytes :=
  [[], lit "\"a", [], lit "\" 1 +", lit "2 \x7b", lit "\x7d \x7d", lit "\"c"]

theorem programs_shortest_groups_open : ∃ e,
    programs [] openLines = [[], lit "\"a\n\n\" 1 +", lit "2 \x7b\n\x7d \x7d"] ∧
    ((newSession {}).eval (budget {}) (lit "2 \x7b\n\x7d \x7d")).2 = some e ∧
    e.message = lit "stack.parsing: 2:3: unmatched \x7d" ∧ e.incomplete = false ∧
    (Repl.lines { session := newSession {} } {} openLines).1.session =
      [[], lit "\"a\n\n\" 1 +", lit "2 \x7b\n\x7d \x7d"].foldl (evaluate {}) (newSession {}) := by
  have hprograms : programs [] openLines =
      [[], lit "\"a\n\n\" 1 +", lit "2 \x7b\n\x7d \x7d"] := by cbv
  obtain ⟨e, he, hmessage⟩ : ∃ e,
      ((newSession {}).eval (budget {}) (lit "2 \x7b\n\x7d \x7d")).2 = some e ∧
      e.message = lit "stack.parsing: 2:3: unmatched \x7d" := ⟨_, by cbv, by cbv⟩
  obtain ⟨-, hfinal, hlines⟩ := programs_shortest_groups openLines
  obtain ⟨done, -, hsession, hall⟩ := hlines { session := newSession {} } {} rfl
  rw [hall (by decide), hprograms] at hsession
  refine ⟨e, hprograms, he, hmessage, hfinal _ ?_ _ _ e he, hsession⟩
  rw [hprograms]
  simp

end Command

end StackLang
