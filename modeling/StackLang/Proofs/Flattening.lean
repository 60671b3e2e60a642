import Mathlib
import StackLang.Proofs.Aborts

/-!
# Nested combinations of streams

Streams are combined at will, with nothing among them, one stream at several places, and
combinations inside of combinations. A combination is built from the inside out, and is taken apart
again when it becomes a part of another. What comes out depends on the streams alone, from left to
right: a write goes to one after the other until one does not take all of it, and a flush goes to
all of them.

* `Combination`, `Combination.leaves`: what is combined, and its streams from left to right.
* `Writer`, `Combination.writer`: what is built, with calls on a `Rack` of streams.
* `Combination.writer_eq`: it is built from the leaves.
* `Writer.writeEach_wrote`, `Writer.flushEach_flushed`: what a call on several streams does.
* `Combination.writer_flat`: nesting makes no difference, and the output that runs is what is built.
-/

namespace StackLang

/-! ## Combinations -/

/-- A combination of streams, which are given by number. -/
inductive Combination where
  | null
  | discard
  | stream (i : Nat)
  | all (cs : List Combination)

/-- What calls for output are made on. -/
inductive Writer where
  | discard
  | stream (i : Nat)
  | several (ws : List Writer)

namespace Writer

/-- What a writer, or nothing, adds to a combination. -/
def parts : Option Writer → List Writer
  | none => []
  | some discard => []
  | some (several ws) => ws
  | some (stream i) => [stream i]

/-- One writer for all parts; a lone one stands for itself. -/
def ofParts : List Writer → Writer
  | [] => discard
  | [w] => w
  | ws => several ws

end Writer

namespace Combination

mutual

/-- The streams from left to right. -/
def leaves : Combination → List Nat
  | null => []
  | discard => []
  | stream i => [i]
  | all cs => leavesList cs

def leavesList : List Combination → List Nat
  | [] => []
  | c :: cs => leaves c ++ leavesList cs

end

mutual

/-- What a combination is built to. -/
def writer? : Combination → Option Writer
  | null => none
  | discard => some .discard
  | stream i => some (.stream i)
  | all cs => some (.ofParts (partsList cs))

def partsList : List Combination → List Writer
  | [] => []
  | c :: cs => Writer.parts (writer? c) ++ partsList cs

end

/-- The writer for some combinations together. -/
def writer (cs : List Combination) : Writer := .ofParts (partsList cs)

theorem parts_ofParts (is : List Nat) :
    Writer.parts (some (.ofParts (is.map .stream))) = is.map .stream := by
  cases is with
  | nil => rfl
  | cons i is =>
    cases is with
    | nil => rfl
    | cons j is => rfl

mutual

theorem parts_eq (c : Combination) : Writer.parts (writer? c) = c.leaves.map .stream := by
  cases c with
  | null => rfl
  | discard => rfl
  | stream i => rfl
  | all cs => rw [writer?, partsList_eq, parts_ofParts, leaves]

theorem partsList_eq (cs : List Combination) : partsList cs = (leavesList cs).map .stream := by
  cases cs with
  | nil => rfl
  | cons c cs => rw [partsList, parts_eq, partsList_eq, leavesList, List.map_append]

end

/-- A combination is built from its leaves. -/
theorem writer_eq (cs : List Combination) : writer cs = .ofParts ((leavesList cs).map .stream) := by
  rw [writer, partsList_eq]

end Combination

/-! ## Calls -/

/-- Streams by number. -/
abbrev Rack := Nat → Stream

namespace Rack

/-- Make a call on one of the streams. -/
def call (f : Stream → Stream × Reply) (i : Nat) (r : Rack) : Rack × Reply :=
  (Function.update r i (f (r i)).1, (f (r i)).2)

/-- Make a call on one stream after the other. -/
def callAll (f : Stream → Stream × Reply) : List Nat → Rack → Rack × List Reply
  | [], r => (r, [])
  | i :: is, r =>
    let (r, reply) := r.call f i
    let (r, replies) := callAll f is r
    (r, reply :: replies)

end Rack

/-- The error of a call that succeeded. A flush has no count. -/
def Reply.flushed : Reply → Reply
  | done _ error => done 0 error
  | panic message => panic message

/-- Without an error, too small a count is one. -/
def Reply.blamed : Reply → Reply
  | done n none => done n (some .short)
  | reply => reply

namespace Writer

mutual

def write (p : Bytes) : Writer → Rack → Rack × Reply
  | discard, r => (r, .done p.length none)
  | stream i, r => r.call (Stream.write p) i
  | several ws, r => writeEach p ws r

def writeEach (p : Bytes) : List Writer → Rack → Rack × Reply
  | [], r => (r, .done p.length none)
  | w :: ws, r =>
    match write p w r with
    | (r, .done n none) =>
      if n = p.length then writeEach p ws r else (r, .done n (some .short))
    | failed => failed

end

mutual

def flush : Writer → Rack → Rack × Reply
  | discard, r => (r, .done 0 none)
  | stream i, r =>
    let (r, reply) := r.call Stream.flush i
    (r, reply.flushed)
  | several ws, r => flushEach ws r

def flushEach : List Writer → Rack → Rack × Reply
  | [], r => (r, .done 0 none)
  | w :: ws, r =>
    match flush w r with
    | (r, .panic message) => (r, .panic message)
    | (r, .done _ error) =>
      match flushEach ws r with
      | (r, .panic message) => (r, .panic message)
      | (r, .done _ error') => (r, .done 0 (error <|> error'))

end

end Writer

/-! ## Several streams -/

def Reply.error? : Reply → Option OutputError
  | done _ error => error
  | panic _ => none

namespace Rack

/-- A text is offered to one stream after the other. -/
inductive Wrote (p : Bytes) (is : List Nat) (r : Rack) : Rack × Reply → Prop
  /-- All streams take all of it. -/
  | whole {r' : Rack} {replies : List Reply} (calls : r.callAll (Stream.write p) is = (r', replies))
    (taken : ∀ reply ∈ replies, reply = .done p.length none) :
    Wrote p is r (r', .done p.length none)
  /-- One stream fails or takes too little, and none is called after it. -/
  | cut {r' : Rack} {called left : List Nat} {replies : List Reply} {last : Reply}
    (split : is = called ++ left)
    (calls : r.callAll (Stream.write p) called = (r', replies ++ [last]))
    (taken : ∀ reply ∈ replies, reply = .done p.length none) (failed : last ≠ .done p.length none) :
    Wrote p is r (r', last.blamed)

/-- One stream after the other is flushed. -/
inductive Flushed (is : List Nat) (r : Rack) : Rack × Reply → Prop
  /-- All streams are; the first error counts. -/
  | all {r' : Rack} {replies : List Reply} (calls : r.callAll Stream.flush is = (r', replies))
    (calm : ∀ reply ∈ replies, reply.Calm) :
    Flushed is r (r', .done 0 (replies.findSome? Reply.error?))
  /-- One stream panics, and none is called after it. -/
  | cut {r' : Rack} {called left : List Nat} {replies : List Reply} {message : Bytes}
    (split : is = called ++ left)
    (calls : r.callAll Stream.flush called = (r', replies ++ [.panic message]))
    (calm : ∀ reply ∈ replies, reply.Calm) : Flushed is r (r', .panic message)

theorem callAll_cons {f : Stream → Stream × Reply} {i : Nat} {is : List Nat} {r r₁ r' : Rack}
    {reply : Reply} {replies : List Reply} (hcall : r.call f i = (r₁, reply))
    (hcalls : r₁.callAll f is = (r', replies)) :
    r.callAll f (i :: is) = (r', reply :: replies) := by
  simp only [callAll, hcall, hcalls]

theorem Wrote.cons {p : Bytes} {i : Nat} {is : List Nat} {r r₁ : Rack} {ended : Rack × Reply}
    (hcall : r.call (Stream.write p) i = (r₁, .done p.length none)) (h : Wrote p is r₁ ended) :
    Wrote p (i :: is) r ended := by
  cases h with
  | whole calls taken =>
    exact .whole (callAll_cons hcall calls) (List.forall_mem_cons.2 ⟨rfl, taken⟩)
  | @cut r' called left replies last split calls taken failed =>
    exact .cut (congrArg (i :: ·) split) (callAll_cons hcall calls)
      (List.forall_mem_cons.2 ⟨rfl, taken⟩) failed

/-- The first stream does not take all of the text. -/
theorem Wrote.first {p : Bytes} {i : Nat} (is : List Nat) {r r₁ : Rack} {reply : Reply}
    (hcall : r.call (Stream.write p) i = (r₁, reply)) (hne : reply ≠ .done p.length none) :
    Wrote p (i :: is) r (r₁, reply.blamed) := by
  have hcalls : r.callAll (Stream.write p) [i] = (r₁, [] ++ [reply]) := callAll_cons hcall rfl
  exact .cut rfl hcalls (List.forall_mem_nil _) hne

theorem Flushed.cons {i n k : Nat} {is : List Nat} {r r₁ r' : Rack} {e e' : Option OutputError}
    (hcall : r.call Stream.flush i = (r₁, .done n e)) (h : Flushed is r₁ (r', .done k e')) :
    Flushed (i :: is) r (r', .done 0 (e <|> e')) := by
  cases h with
  | @all _ replies calls calm =>
    have hfirst : (e <|> replies.findSome? Reply.error?) =
        (Reply.done n e :: replies).findSome? Reply.error? := by
      cases e <;> rfl
    rw [hfirst]
    exact .all (callAll_cons hcall calls) (List.forall_mem_cons.2 ⟨Reply.calm_done n e, calm⟩)

theorem Flushed.cons_panic {i n : Nat} {is : List Nat} {r r₁ r' : Rack} {e : Option OutputError}
    {message : Bytes} (hcall : r.call Stream.flush i = (r₁, .done n e))
    (h : Flushed is r₁ (r', .panic message)) : Flushed (i :: is) r (r', .panic message) := by
  cases h with
  | @cut _ called left replies _ split calls calm =>
    exact .cut (congrArg (i :: ·) split) (callAll_cons hcall calls)
      (List.forall_mem_cons.2 ⟨Reply.calm_done n e, calm⟩)

end Rack

namespace Writer

theorem writeEach_wrote (p : Bytes) (is : List Nat) (r : Rack) :
    r.Wrote p is (writeEach p (is.map .stream) r) := by
  induction is generalizing r with
  | nil => exact .whole rfl (List.forall_mem_nil _)
  | cons i is ih =>
    rw [List.map_cons, writeEach, write]
    generalize hcall : r.call (Stream.write p) i = called
    obtain ⟨r₁, reply⟩ := called
    cases reply with
    | panic message => exact .first is hcall (by simp)
    | done n error =>
      cases error with
      | some e => exact .first is hcall (by simp)
      | none =>
        by_cases hn : n = p.length
        · subst hn
          simpa using (ih r₁).cons hcall
        · simp only [if_neg hn]
          exact Rack.Wrote.first is hcall (by simp [hn])

theorem flushEach_flushed (is : List Nat) (r : Rack) :
    r.Flushed is (flushEach (is.map .stream) r) := by
  induction is generalizing r with
  | nil => exact .all rfl (List.forall_mem_nil _)
  | cons i is ih =>
    rw [List.map_cons, flushEach, flush]
    generalize hcall : r.call Stream.flush i = called
    obtain ⟨r₁, reply⟩ := called
    cases reply with
    | panic message =>
      have hcalls : r.callAll Stream.flush [i] = (r₁, [] ++ [.panic message]) :=
        Rack.callAll_cons hcall rfl
      exact .cut rfl hcalls (List.forall_mem_nil _)
    | done n error =>
      have hrest := ih r₁
      simp only [Reply.flushed]
      generalize flushEach (is.map .stream) r₁ = flushed at hrest ⊢
      obtain ⟨r', reply'⟩ := flushed
      cases reply' with
      | panic message => exact hrest.cons_panic hcall
      | done k error' => exact hrest.cons hcall

end Writer

/-! ## Distinct streams -/

namespace Rack

variable {i : Nat} {is : List Nat} {r : Rack} {ended : Rack × Reply}

theorem callAll_other (f : Stream → Stream × Reply) (hi : i ∉ is) (r : Rack) :
    (r.callAll f is).1 i = r i := by
  induction is generalizing r with
  | nil => rfl
  | cons j is ih =>
    rw [List.mem_cons, not_or] at hi
    rw [callAll, ih hi.2]
    exact Function.update_of_ne hi.1 _ r

theorem Wrote.other {p : Bytes} (h : r.Wrote p is ended) (hi : i ∉ is) : ended.1 i = r i := by
  cases h with
  | whole calls taken => rw [← callAll_other _ hi r, calls]
  | cut split calls taken failed =>
    rw [split, List.mem_append, not_or] at hi
    rw [← callAll_other _ hi.1 r, calls]

theorem Flushed.other (h : r.Flushed is ended) (hi : i ∉ is) : ended.1 i = r i := by
  cases h with
  | all calls calm => rw [← callAll_other _ hi r, calls]
  | cut split calls calm =>
    rw [split, List.mem_append, not_or] at hi
    rw [← callAll_other _ hi.1 r, calls]

theorem map_update (hi : i ∉ is) (s : Stream) : is.map (Function.update r i s) = is.map r :=
  List.map_congr_left fun _ hj => Function.update_of_ne (ne_of_mem_of_not_mem hj hi) s r

end Rack

/-- A call for output. -/
inductive Request where
  | write (p : Bytes)
  | flush

namespace Writer

def answer (w : Writer) (r : Rack) : Request → Rack × Reply
  | .write p => w.write p r
  | .flush => w.flush r

/-- One call after the other, with the replies. -/
def play (w : Writer) : List Request → Rack → Rack × List Reply
  | [], r => (r, [])
  | request :: requests, r =>
    let (r, reply) := w.answer r request
    let (r, replies) := w.play requests r
    (r, reply :: replies)

end Writer

namespace Output

def answer (o : Output) : Request → Output × Reply
  | .write p => o.write p
  | .flush => o.flush

/-- One call after the other, with the replies. -/
def play : List Request → Output → Output × List Reply
  | [], o => (o, [])
  | request :: requests, o =>
    let (o, reply) := o.answer request
    let (o, replies) := play requests o
    (o, reply :: replies)

theorem writeAll_map (p : Bytes) {is : List Nat} (h : is.Nodup) (r : Rack) :
    writeAll p (is.map r) =
      (is.map (Writer.writeEach p (is.map .stream) r).1,
        (Writer.writeEach p (is.map .stream) r).2) := by
  induction is generalizing r with
  | nil => rfl
  | cons i is ih =>
    obtain ⟨hi, hnodup⟩ := List.nodup_cons.1 h
    simp only [List.map_cons, writeAll, Writer.writeEach, Writer.write, Rack.call]
    generalize (r i).write p = called
    obtain ⟨s, reply⟩ := called
    have hsame := @Rack.map_update i is r hi s
    cases reply with
    | panic message => simp only [hsame, Function.update_self]
    | done n error =>
      cases error with
      | some e => simp only [hsame, Function.update_self]
      | none =>
        by_cases hn : n = p.length
        · have hother := (Writer.writeEach_wrote p is (Function.update r i s)).other hi
          simp only [if_pos hn, ← hsame, ih hnodup, hother, Function.update_self]
        · simp only [if_neg hn, hsame, Function.update_self]

theorem flush_map {is : List Nat} (h : is.Nodup) (r : Rack) :
    flush (is.map r) =
      (is.map (Writer.flushEach (is.map .stream) r).1,
        (Writer.flushEach (is.map .stream) r).2) := by
  induction is generalizing r with
  | nil => rfl
  | cons i is ih =>
    obtain ⟨hi, hnodup⟩ := List.nodup_cons.1 h
    simp only [List.map_cons, flush, Writer.flushEach, Writer.flush, Rack.call]
    generalize (r i).flush = called
    obtain ⟨s, reply⟩ := called
    have hsame := @Rack.map_update i is r hi s
    cases reply with
    | panic message => simp only [Reply.flushed, hsame, Function.update_self]
    | done n error =>
      have hother := (Writer.flushEach_flushed is (Function.update r i s)).other hi
      rw [Function.update_self] at hother
      simp only [Reply.flushed, ← hsame, ih hnodup]
      generalize Writer.flushEach (is.map .stream) (Function.update r i s) = flushed at hother ⊢
      obtain ⟨r', reply'⟩ := flushed
      subst hother
      cases reply' <;> rfl

/-- An output answers as the writer that is built from its streams. -/
theorem answer_map {is : List Nat} (h : is.Nodup) (r : Rack) (request : Request) :
    answer (is.map r) request =
      (is.map ((Writer.ofParts (is.map .stream)).answer r request).1,
        ((Writer.ofParts (is.map .stream)).answer r request).2) := by
  rcases is with _ | ⟨i, _ | ⟨j, is⟩⟩
  · cases request <;> rfl
  · cases request with
    | write p =>
      simp only [answer, List.map_cons, List.map_nil, write, Writer.ofParts, Writer.answer,
        Writer.write, Rack.call, Function.update_self]
    | flush =>
      simp only [answer, List.map_cons, List.map_nil, flush, Writer.ofParts, Writer.answer,
        Writer.flush, Rack.call, Function.update_self]
      generalize (r i).flush = called
      obtain ⟨s, reply⟩ := called
      cases reply with
      | panic message => simp only [Reply.flushed]
      | done n error => cases error <;> rfl
  · cases request with
    | write p => exact writeAll_map p h r
    | flush => exact flush_map h r

theorem play_map {is : List Nat} (h : is.Nodup) (requests : List Request) (r : Rack) :
    play requests (is.map r) =
      (is.map ((Writer.ofParts (is.map .stream)).play requests r).1,
        ((Writer.ofParts (is.map .stream)).play requests r).2) := by
  induction requests generalizing r with
  | nil => rfl
  | cons request requests ih => simp only [play, Writer.play, answer_map h, ih]

end Output

namespace Combination

mutual

/-- A combination of the streams themselves. -/
def tee (r : Rack) : Combination → Tee
  | null => .nothing
  | discard => .nothing
  | stream i => .stream (r i)
  | all cs => .all (teeList r cs)

def teeList (r : Rack) : List Combination → List Tee
  | [] => []
  | c :: cs => tee r c :: teeList r cs

end

mutual

theorem flatten_tee (r : Rack) (c : Combination) : (c.tee r).flatten = c.leaves.map r := by
  cases c with
  | null => rfl
  | discard => rfl
  | stream i => rfl
  | all cs => rw [tee, Tee.flatten, flattenList_teeList, leaves]

theorem flattenList_teeList (r : Rack) (cs : List Combination) :
    Tee.flattenList (teeList r cs) = (leavesList cs).map r := by
  cases cs with
  | nil => rfl
  | cons c cs =>
    rw [teeList, Tee.flattenList, flatten_tee, flattenList_teeList, leavesList, List.map_append]

end

/-- However streams are combined, the calls on what is built go as its leaves determine. With
several leaves, a text is offered to one after the other until one does not take all of it, and all
of them are flushed. Without any, output is discarded, and a lone one is what is built. If no stream
stands twice, the streams of the flattened combination answer the same to any sequence of calls. -/
theorem writer_flat (cs : List Combination) :
    (∀ cs', leavesList cs' = leavesList cs → ∀ requests r,
        (writer cs').play requests r = (writer cs).play requests r) ∧
      (2 ≤ (leavesList cs).length → ∀ r : Rack,
        (∀ p, r.Wrote p (leavesList cs) ((writer cs).write p r)) ∧
          r.Flushed (leavesList cs) ((writer cs).flush r)) ∧
      (leavesList cs = [] → writer cs = .discard) ∧
      (∀ i, leavesList cs = [i] → writer cs = .stream i) ∧
      ((leavesList cs).Nodup → ∀ requests r,
        (Tee.all (teeList r cs)).flatten.play requests =
          ((leavesList cs).map ((writer cs).play requests r).1,
            ((writer cs).play requests r).2)) := by
  refine ⟨?_, ?_, ?_, ?_, ?_⟩
  · intro cs' heq requests r
    rw [writer_eq, writer_eq, heq]
  · intro htwo r
    rw [writer_eq]
    generalize leavesList cs = is at htwo
    rcases is with _ | ⟨i, _ | ⟨j, is⟩⟩
    · simp at htwo
    · simp at htwo
    · exact ⟨fun p => Writer.writeEach_wrote p _ r, Writer.flushEach_flushed _ r⟩
  · intro hnone
    rw [writer_eq, hnone]
    rfl
  · intro i hlone
    rw [writer_eq, hlone]
    rfl
  · intro hnodup requests r
    rw [Tee.flatten, flattenList_teeList, Output.play_map hnodup, writer_eq]

/-- The first of two streams takes half of what it is offered, and reports nothing. -/
def halving : Rack := fun i =>
  if i = 0 then
    .plain { behavior := { Behavior.faithful with write := fun _ n => .done (n / 2) none } }
  else .plain {}

/-- The second stream of a nested combination is not called after the first took too little. -/
theorem writer_flat_short :
    leavesList [.all [.null, .stream 0], .all [.discard, .all [.stream 1]]] = [0, 1] ∧
      ((Tee.all (teeList halving
          [.all [.null, .stream 0], .all [.discard, .all [.stream 1]]])).flatten.play
        [.write (lit "ab"), .flush]).2 = [.done 1 (some .short), .done 0 none] := by
  refine ⟨rfl, ?_⟩
  rw [(writer_flat [.all [.null, .stream 0], .all [.discard, .all [.stream 1]]]).2.2.2.2
    (by decide)]
  rfl

end Combination

end StackLang
