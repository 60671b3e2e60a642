import Mathlib
import StackLang.Log.Report
import StackLang.Proofs.Controls

/-!
# Reports over time

A report makes one call on its device for each message, whatever became of the messages before it:
the buffer that messages are put together in is empty whenever a call is over, also if the device
failed or took a part only. The exit code is that of the worst that has happened.

* `Report.Entry`: a call on a report, and the texts that it has to offer.
* `Behavior.accepts`: a device takes a text as a whole, and reports no error.
* `Report.put_spec`, `Report.call_spec`: what one call does, from an empty buffer.
* `Report.run_spec`: what calls do, one after the other.
* `Report.exitCode_after_calls`: the exit code and what the device was offered, after any calls.
-/

namespace StackLang

/-- The text is taken as a whole in this call, and no error is reported. -/
def Behavior.accepts (b : Behavior) (call : Nat) (text : Bytes) : Bool :=
  match b.write call text.length with
  | .done count none => text.length ≤ count
  | _ => false

/-- One of these texts is not accepted when they are offered one after the other. -/
def Device.fails (d : Device) (texts : List Bytes) : Bool :=
  (texts.zipIdx (d.writes + 1)).any fun p => !d.behavior.accepts p.2 p.1

theorem Device.writeEach_writes (d : Device) (texts : List Bytes) :
    (d.writeEach texts).writes = d.writes + texts.length ∧
      (d.writeEach texts).behavior = d.behavior := by
  induction texts generalizing d with
  | nil => exact ⟨rfl, rfl⟩
  | cons s texts ih =>
    obtain ⟨hwrites, hbehavior⟩ := ih (d.write s).1
    refine ⟨hwrites.trans ?_, hbehavior⟩
    show d.writes + 1 + texts.length = d.writes + (texts.length + 1)
    omega

theorem Device.fails_append (d : Device) (texts texts' : List Bytes) :
    d.fails (texts ++ texts') = (d.fails texts || (d.writeEach texts).fails texts') := by
  obtain ⟨hwrites, hbehavior⟩ := d.writeEach_writes texts
  rw [fails, fails, fails, List.zipIdx_append, List.any_append, hwrites, hbehavior,
    Nat.add_right_comm]

namespace Report

/-! ## Calls -/

/-- A call on a report. -/
inductive Entry where
  | messagef (level template : Bytes) (args : List Template.Argument)
  | leveledf (level template : Bytes) (args : List Template.Argument)
  | errorf (template : Bytes) (args : List Template.Argument)
  | errorIf (error : Option Bytes)

namespace Entry

/-- The level and the message that are reported, if anything is. -/
def says? : Entry → Option (Bytes × Bytes)
  | messagef level template args => some (level, Template.fill template args)
  | leveledf level template args => some (level, Template.fill template args)
  | errorf template args => some (lit "ERROR", Template.fill template args)
  | errorIf error => error.map (lit "ERROR", ·)

def isError : Entry → Bool
  | messagef .. => false
  | leveledf .. => false
  | errorf .. => true
  | errorIf error => error.isSome

end Entry

/-- How a message reads: its level, the message, and a newline unless it ends in one. -/
def wording (level message : Bytes) : Bytes :=
  let s := (if level = [] then [] else level ++ lit ": ") ++ message
  if s.getLast? = some Byte.newline then s else s ++ [Byte.newline]

/-- The texts that a message has to offer: none if there is neither a level nor a message. -/
def texts (level message : Bytes) : List Bytes :=
  if level = [] ∧ message = [] then [] else [wording level message]

def Entry.texts (e : Entry) : List Bytes :=
  (e.says?.map fun said => Report.texts said.1 said.2).getD []

def call (r : Report) : Entry → Report × Option Bytes
  | .messagef level template args => r.messagef level template args
  | .leveledf level template args => leveledf level r template args
  | .errorf template args => r.errorf template args
  | .errorIf error => r.errorIf error

/-- Calls are made one after the other, up to a panic. -/
def run (r : Report) : List Entry → Report × Option Bytes
  | [] => (r, none)
  | e :: es => if (r.call e).2.isSome then r.call e else (r.call e).1.run es

/-! ## One message -/

theorem endLine_eq {s : Bytes} (h : s ≠ []) :
    endLine s = if s.getLast? = some Byte.newline then s else s ++ [Byte.newline] := by
  unfold endLine
  cases hlast : s.getLast? with
  | none => exact absurd (List.getLast?_eq_none_iff.1 hlast) h
  | some b => simp only [Option.some.injEq]

/-- From an empty buffer, a message has its own wording. -/
theorem endLine_heading {level message : Bytes} (h : ¬(level = [] ∧ message = [])) :
    endLine (heading level ++ message) = wording level message := by
  have hheading : heading level = if level = [] then [] else level ++ lit ": " := by
    simp only [heading, List.isEmpty_iff]
  rw [endLine_eq, hheading]
  · rfl
  · rw [hheading]
    split
    · rename_i hlevel
      exact fun hempty => h ⟨hlevel, hempty⟩
    · rename_i hlevel
      simp [hlevel]

theorem wording_ne_nil (level message : Bytes) : wording level message ≠ [] := by
  unfold wording
  simp only
  generalize (if level = [] then [] else level ++ lit ": ") ++ message = s
  split
  · rename_i hlast
    rintro rfl
    cases hlast
  · simp

/-- The buffer is offered as a whole. Whether the device accepts it shows in the reply. -/
theorem drain_spec {r : Report} (hheld : r.held ≠ [])
    (hcalm : ∀ message, r.device.behavior.write (r.device.writes + 1) r.held.length ≠ .panic message) :
    ∃ rest count error, r.drain =
        ({ r with device := (r.device.write r.held).1, held := rest }, .done count error) ∧
      (error = none ↔ r.device.behavior.accepts (r.device.writes + 1) r.held = true) := by
  unfold drain Behavior.accepts
  rw [if_neg (by simpa using hheld)]
  simp only [Device.write]
  cases hreply : r.device.behavior.write (r.device.writes + 1) r.held.length with
  | panic message => exact absurd hreply (hcalm message)
  | done count error =>
    refine ⟨_, _, _, rfl, ?_⟩
    cases error with
    | none =>
      rw [decide_eq_true_iff]
      split
      · rename_i hshort
        refine ⟨fun hnone => ?_, fun hle => ?_⟩
        · cases hnone
        · omega
      · rename_i hwhole
        refine ⟨fun _ => ?_, fun _ => rfl⟩
        omega
    | some e => split <;> simp

/-- From an empty buffer, the device is offered what the message has to offer and nothing else, and
the buffer is empty again. -/
theorem put_spec {r : Report} (hheld : r.held = [])
    (hcalm : ∀ call offered message, r.device.behavior.write call offered ≠ .panic message)
    (level message : Bytes) :
    ∃ count error, r.put level message =
        ({ r with device := r.device.writeEach (texts level message) }, .done count error) ∧
      (error = none ↔ r.device.fails (texts level message) = false) := by
  unfold texts
  split
  · rename_i hempty
    obtain ⟨rfl, rfl⟩ := hempty
    refine ⟨0, none, ?_, fun _ => rfl, fun _ => rfl⟩
    rw [put, hheld]
    rfl
  · rename_i hsays
    obtain ⟨rest, count, error, hdrain, hnone⟩ :=
      drain_spec (r := { r with held := wording level message }) (wording_ne_nil level message)
        (hcalm _ _)
    refine ⟨count, error, ?_, hnone.trans ?_⟩
    · rw [put, hheld, List.nil_append, endLine_heading hsays, hdrain]
      rfl
    · simp [Device.fails]

/-! ## Calls over time -/

/-- The exit code after calls that have failed or not, with errors among them or not. -/
def verdict (code : Nat) (failed error : Bool) : Nat :=
  if failed then 2 else if error && code == 0 then 1 else code

theorem verdict_verdict (code : Nat) (failed failed' error error' : Bool) :
    verdict (verdict code failed error) failed' error' =
      verdict code (failed || failed') (error || error') := by
  unfold verdict
  cases failed' with
  | true => simp
  | false =>
    cases failed with
    | true => simp
    | false =>
      by_cases hcode : code = 0
      · subst hcode
        cases error <;> simp
      · simp [hcode]

/-- The report `r'` is what becomes of `r` when it has offered `texts`, for an error or not. -/
structure Reported (r : Report) (texts : List Bytes) (error : Bool) (r' : Report) : Prop where
  held : r'.held = []
  device : r'.device = r.device.writeEach texts
  exitCode : r'.exitCode = verdict r.exitCode (r.device.fails texts) error

theorem Reported.refl {r : Report} (h : r.held = []) : Reported r [] false r := ⟨h, rfl, rfl⟩

theorem Reported.trans {r r' r'' : Report} {texts texts' : List Bytes} {error error' : Bool}
    (h : Reported r texts error r') (h' : Reported r' texts' error' r'') :
    Reported r (texts ++ texts') (error || error') r'' where
  held := h'.held
  device := by
    rw [h'.device, h.device]
    exact List.foldl_append.symm
  exitCode := by
    rw [h'.exitCode, h.exitCode, h.device, verdict_verdict, Device.fails_append]

section

variable {r : Report} (hheld : r.held = [])
  (hcalm : ∀ call offered message, r.device.behavior.write call offered ≠ .panic message)

include hheld hcalm

theorem message_spec (level message : Bytes) :
    ∃ r', r.message level message = (r', none) ∧ Reported r (texts level message) false r' := by
  obtain ⟨count, error, hput, hnone⟩ := put_spec hheld hcalm level message
  unfold Report.message
  rw [hput]
  cases error with
  | none => exact ⟨_, rfl, hheld, rfl, by simp [verdict, hnone.1 rfl]⟩
  | some e =>
    have hfails : r.device.fails (texts level message) = true := by simpa using hnone
    exact ⟨_, rfl, hheld, rfl, by simp [verdict, hfails]⟩

theorem error_spec (message : Bytes) :
    ∃ r', r.error message = (r', none) ∧ Reported r (texts (lit "ERROR") message) true r' := by
  obtain ⟨count, error, hput, hnone⟩ := put_spec hheld hcalm (lit "ERROR") message
  unfold Report.error
  rw [hput]
  cases error with
  | none =>
    refine ⟨_, rfl, ?_⟩
    by_cases hcode : r.exitCode = 0
    · rw [if_pos hcode]
      exact ⟨hheld, rfl, by simp [verdict, hnone.1 rfl, hcode]⟩
    · rw [if_neg hcode]
      exact ⟨hheld, rfl, by simp [verdict, hnone.1 rfl, hcode]⟩
  | some e =>
    have hfails : r.device.fails (texts (lit "ERROR") message) = true := by simpa using hnone
    exact ⟨_, rfl, hheld, rfl, by simp [verdict, hfails]⟩

/-- A call offers what it has to offer, whatever calls there were before it. -/
theorem call_spec (e : Entry) :
    ∃ r', r.call e = (r', none) ∧ Reported r e.texts e.isError r' := by
  cases e with
  | messagef level template args => exact message_spec hheld hcalm level _
  | leveledf level template args => exact message_spec hheld hcalm level _
  | errorf template args => exact error_spec hheld hcalm _
  | errorIf error =>
    cases error with
    | none => exact ⟨r, rfl, .refl hheld⟩
    | some message => exact error_spec hheld hcalm message

theorem run_spec (es : List Entry) :
    ∃ r', r.run es = (r', none) ∧
      Reported r (es.flatMap Entry.texts) (es.any Entry.isError) r' := by
  induction es generalizing r with
  | nil => exact ⟨r, rfl, .refl hheld⟩
  | cons e es ih =>
    obtain ⟨r', hcall, hfirst⟩ := call_spec hheld hcalm e
    have hbehavior : r'.device.behavior = r.device.behavior := by
      rw [hfirst.device, (Device.writeEach_writes _ _).2]
    obtain ⟨r'', hrun, hrest⟩ := ih hfirst.held (by rwa [hbehavior])
    refine ⟨r'', ?_, hfirst.trans hrest⟩
    rw [run, hcall]
    exact hrun

end

/-- Make any calls on a new report whose device fails as it likes, but does not panic. Each call
offers the device its own level and message, with a newline behind them unless there is one, or
nothing if both are empty; no other bytes are offered. The exit code is 2 if the device did not
accept one of the texts, or else 1 if an error was among the calls, or else 0. -/
theorem exitCode_after_calls (d : Device)
    (hcalm : ∀ call offered message, d.behavior.write call offered ≠ .panic message)
    (es : List Entry) :
    ∃ r, ({ device := d } : Report).run es = (r, none) ∧ r.held = [] ∧
      r.device.offers = d.offers ++ es.flatMap Entry.texts ∧
      r.exitCode = if d.fails (es.flatMap Entry.texts) then 2
        else if es.any Entry.isError then 1 else 0 := by
  obtain ⟨r, hrun, hreported⟩ := run_spec (r := { device := d }) rfl hcalm es
  refine ⟨r, hrun, hreported.held, ?_, ?_⟩
  · rw [hreported.device, Device.offers_writeEach]
  · rw [hreported.exitCode, verdict]
    simp

/-- Takes half of what it is offered first, and after that reports an error once. -/
def faltering : Behavior where
  write call offered :=
    if call = 1 then .done (offered / 2) none
    else if call = 2 then .done offered (some (.failed (lit "full")))
    else .done offered none
  flush _ := .done 0 none

/-- Messages behind one that was taken in half and one that failed, with an empty one between. -/
theorem exitCode_after_calls_faltering :
    ∃ r, ({ device := { behavior := faltering } } : Report).run
        [.messagef (lit "I") (lit "one") [], .messagef [] [] [], .errorf (lit "two %v\n") [.int 2],
          .errorIf none, .leveledf [] (lit "three") []] = (r, none) ∧
      r.device.offers = [lit "I: one\n", lit "ERROR: two 2\n", lit "three\n"] ∧ r.exitCode = 2 := by
  have hcalm : ∀ call offered message, faltering.write call offered ≠ .panic message := by
    intro call offered message
    unfold faltering
    simp only
    split
    · simp
    · split <;> simp
  obtain ⟨r, hrun, -, hoffers, hexit⟩ := exitCode_after_calls { behavior := faltering } hcalm
    [.messagef (lit "I") (lit "one") [], .messagef [] [] [], .errorf (lit "two %v\n") [.int 2],
      .errorIf none, .leveledf [] (lit "three") []]
  refine ⟨r, hrun, hoffers.trans ?_, hexit.trans ?_⟩
  · decide +kernel
  · decide +kernel

/-- A panic leaves the message in the buffer, and the next call offers both. -/
example :
    let behavior : Behavior :=
      { Behavior.faithful with
        write := fun call offered => if call = 1 then .panic [] else .done offered none }
    let r := (({ device := { behavior } } : Report).messagef [] (lit "a") []).1
    (r.messagef [] (lit "b") []).1.device.offers = [lit "a\n", lit "a\nb\n"] := by
  decide +kernel

end Report

end StackLang
