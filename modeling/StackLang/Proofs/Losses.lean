import Mathlib
import StackLang.Proofs.Controls
import StackLang.Proofs.Halting
import StackLang.Proofs.Receipt

/-!
# Silent losses

Devices may misbehave in any way: report errors, panic, or take less than they are offered and
report nothing. Several streams have the count of each write looked at, and so has a buffer. Only a
lone stream without a buffer has not: there an evaluation may end well although a part of the text
is lost.

* `Output.Keeps`: what holds of an output as long as all calls on it succeed.
* `Session.run_tracks`: it holds of the texts of a run that ends well.
* `Device.taken_eq_iff`: when a device got all it was offered.
* `Session.eval_losses`: an evaluation without an error loses nothing, but for a lone stream without
  a buffer; there it loses what the device left.
-/

namespace StackLang

/-! ## Calls that succeed -/

namespace Stream

theorem writeBuffer_content {direct : Bool} {d : Device} {b : Buffer} {s' : Stream} {text : Bytes}
    {n : Nat} (h : onBuffer (writeBuffer direct d b text 0) = (s', .done n none)) :
    s'.content = (buffered d b).content ++ text := by
  cases hb : b.error with
  | none =>
    have htakes := writeBuffer_takes direct d b text 0 hb
    rw [h] at htakes
    exact (htakes.whole n rfl).2
  | some e =>
    rw [writeBuffer, hb] at h
    cases h

/-- A text is added to a stream, and a buffer may still hold some of it. -/
structure Adds (text : Bytes) (s s' : Stream) : Prop where
  behavior : s'.behavior = s.behavior
  direct : s'.Direct ↔ s.Direct
  content : s'.content = s.content ++ text

theorem Adds.refl (s : Stream) : Adds [] s s := ⟨rfl, Iff.rfl, (List.append_nil _).symm⟩

theorem Adds.trans {text text' : Bytes} {s s' s'' : Stream} (h : Adds text s s')
    (h' : Adds text' s' s'') : Adds (text ++ text') s s'' where
  behavior := h'.behavior.trans h.behavior
  direct := h'.direct.trans h.direct
  content := by rw [h'.content, h.content, List.append_assoc]

/-- A write that succeeds adds the text. Without a buffer, the count has to be right. -/
theorem write_adds {s s' : Stream} {text : Bytes} {n : Nat}
    (hwrite : s.write text = (s', .done n none)) (hcount : s.Direct → n = text.length) :
    Adds text s s' := by
  have hbehavior := (s.write_answers text).behavior
  have hdevice : ∀ d : Device, s.Direct → (d.write text).2 = .done n none →
      (d.write text).1.received ++ [] = (d.received ++ []) ++ text := by
    intro d hdirect hreply
    rw [List.append_nil, List.append_nil, d.write_received, hreply, Reply.count, hcount hdirect,
      List.take_length]
  obtain ⟨rfl, hreply⟩ := Prod.mk.inj hwrite
  cases s with
  | flushing d => exact ⟨hbehavior, Iff.rfl, hdevice d trivial hreply⟩
  | plain d => exact ⟨hbehavior, Iff.rfl, hdevice d trivial hreply⟩
  | buffered d b => exact ⟨hbehavior, Iff.rfl, writeBuffer_content hwrite⟩

theorem writeText_adds {s s' : Stream} {text : Bytes} {n : Nat}
    (hwrite : s.writeText text = (s', .done n none)) (hcount : s.Direct → n = text.length) :
    Adds text s s' := by
  cases s with
  | flushing d => exact @write_adds (.flushing d) s' text n hwrite hcount
  | plain d => exact @write_adds (.plain d) s' text n hwrite hcount
  | buffered d b =>
    have hbehavior := ((buffered d b).writeText_answers text).behavior
    obtain ⟨rfl, -⟩ := Prod.mk.inj hwrite
    exact ⟨hbehavior, Iff.rfl, writeBuffer_content hwrite⟩

/-- After a flush that succeeds, nothing is held back. -/
theorem flush_adds {s s' : Stream} {n : Nat} (hflush : s.flush = (s', .done n none)) :
    Adds [] s s' ∧ s'.received = s.content := by
  have hflushes := s.flush_flushes
  have hbehavior := s.flush_answers.behavior
  rw [hflush] at hflushes hbehavior
  obtain ⟨hbuffer, hreceived⟩ := hflushes.whole n rfl
  have hdirect : s'.Direct ↔ s.Direct := by
    obtain ⟨rfl, -⟩ := Prod.mk.inj hflush
    cases s <;> exact Iff.rfl
  refine ⟨⟨hbehavior, hdirect, ?_⟩, hreceived⟩
  rw [Stream.content, hbuffer, hreceived]

theorem count_of_lawful {s s' : Stream} {text : Bytes} {n : Nat} (hlawful : s.behavior.Lawful)
    (hwrite : s.write text = (s', .done n none)) (hdirect : s.Direct) : n = text.length := by
  cases s with
  | flushing d => exact Device.write_whole hlawful (Prod.ext rfl (Prod.mk.inj hwrite).2)
  | plain d => exact Device.write_whole hlawful (Prod.ext rfl (Prod.mk.inj hwrite).2)
  | buffered d b => exact hdirect.elim

theorem writeText_eq {s : Stream} (h : s.Direct) (text : Bytes) :
    s.writeText text = s.write text := by
  cases s with
  | flushing d => rfl
  | plain d => rfl
  | buffered d b => exact h.elim

/-- A device without a buffer sees the text in one call. -/
theorem write_calls {s : Stream} (h : s.Direct) (text : Bytes) :
    (s.write text).1.Direct ∧
      ∃ n, (s.write text).1.device.calls = s.device.calls ++ [.write text n] := by
  have hdevice : ∀ d : Device, ∃ n, (d.write text).1.calls = d.calls ++ [.write text n] :=
    fun d => ⟨_, List.reverse_cons⟩
  cases s with
  | flushing d => exact ⟨trivial, hdevice d⟩
  | plain d => exact ⟨trivial, hdevice d⟩
  | buffered d b => exact h.elim

theorem flush_calls {s : Stream} (h : s.Direct) :
    s.flush.1.Direct ∧ ∃ new, s.flush.1.device.calls = s.device.calls ++ new ∧
      new.filterMap Call.offered? = [] := by
  cases s with
  | flushing d => exact ⟨trivial, [.flush], List.reverse_cons, rfl⟩
  | plain d => exact ⟨trivial, [], (List.append_nil _).symm, rfl⟩
  | buffered d b => exact h.elim

end Stream

namespace Output

theorem writeAll_done {text : Bytes} {o o' : Output} {n : Nat}
    (h : writeAll text o = (o', .done n none)) :
    List.Forall₂ (fun s s' => s.write text = (s', .done text.length none)) o o' := by
  induction o generalizing o' with
  | nil =>
    cases h
    exact .nil
  | cons stream streams ih =>
    rw [writeAll] at h
    split at h
    · rename_i stream' k heq
      split at h
      · rename_i hk
        obtain ⟨rfl, hreply⟩ := Prod.mk.inj h
        exact .cons (hk ▸ heq) (ih (Prod.ext rfl hreply))
      · cases h
    · rename_i stream' reply hne heq
      obtain ⟨-, rfl⟩ := Prod.mk.inj h
      exact absurd rfl (hne n)

theorem flush_done {o o' : Output} {n : Nat} (h : o.flush = (o', .done n none)) :
    List.Forall₂ (fun s s' => ∃ k, s.flush = (s', .done k none)) o o' := by
  induction o generalizing o' n with
  | nil =>
    cases h
    exact .nil
  | cons stream streams ih =>
    unfold flush at h
    split at h
    · cases h
    · rename_i stream' count error heq
      split at h
      · cases h
      · rename_i o₁ count' error' heq'
        cases error with
        | some e => cases h
        | none =>
          cases error' with
          | some e => cases h
          | none =>
            cases h
            exact .cons ⟨count, heq⟩ (ih heq')

/-- What holds of the texts that were sent to an output, as long as all calls on it succeed. -/
structure Keeps (R : List Bytes → Output → Prop) : Prop where
  send : ∀ {texts text : _} {s : Session} {o : Output} {n : Nat}, R texts s.output →
    s.send text = (o, .done n none) → R (texts ++ [text]) o
  flush : ∀ {texts : _} {o o' : Output} {n : Nat}, R texts o →
    o.flush = (o', .done n none) → R texts o'

end Output

/-! ## Runs that end well -/

namespace Session

/-- A text that is sent is written to a lone stream, or offered to all of them and taken by each. -/
theorem send_done {s : Session} {text : Bytes} {o : Output} {n : Nat}
    (h : s.send text = (o, .done n none)) :
    (∃ stream stream', s.output = [stream] ∧ o = [stream'] ∧
      (stream.write (Terminal.encode text) = (stream', .done n none) ∨
        stream.writeText (Terminal.encode text) = (stream', .done n none))) ∨
    (s.output.length ≠ 1 ∧ List.Forall₂ (fun stream stream' => stream.write (Terminal.encode text) =
      (stream', .done (Terminal.encode text).length none)) s.output o) := by
  unfold send at h
  split at h
  · unfold Output.write at h
    split at h
    · rename_i stream hlone
      obtain ⟨rfl, hreply⟩ := Prod.mk.inj h
      exact .inl ⟨stream, _, hlone, rfl, .inl (Prod.ext rfl hreply)⟩
    · rename_i hmany
      refine .inr ⟨fun hlength => ?_, Output.writeAll_done h⟩
      obtain ⟨stream, hlone⟩ := List.length_eq_one_iff.1 hlength
      exact hmany stream hlone
  · rename_i hcontrol
    have hsame : Terminal.encode text = text := by rw [Terminal.encode, if_neg hcontrol]
    rw [hsame]
    unfold Output.writeText at h
    split at h
    · rename_i stream hlone
      obtain ⟨rfl, hreply⟩ := Prod.mk.inj h
      exact .inl ⟨stream, _, hlone, rfl, .inr (Prod.ext rfl hreply)⟩
    · rename_i hmany
      refine .inr ⟨fun hlength => ?_, Output.writeAll_done h⟩
      obtain ⟨stream, hlone⟩ := List.length_eq_one_iff.1 hlength
      exact hmany stream hlone

variable {R : List Bytes → Output → Prop} {s t : Session} {sent : List Bytes} {text : Bytes}

theorem flush_eq_none (h : s.flush = (t, none)) :
    ∃ n, s.output.flush = (t.output, .done n none) := by
  rw [flush] at h
  rcases hflush : s.output.flush with ⟨o, ⟨n, _ | e⟩ | message⟩
  · rw [hflush] at h
    cases h
    exact ⟨n, rfl⟩
  · have hfailed := afterCall_failed s o n e
    rw [hflush] at h
    rw [h] at hfailed
    cases hfailed
  · rw [hflush] at h
    cases h

section

variable (hR : Output.Keeps R)

include hR

theorem flush_tracks (h : R sent s.output) (hflush : s.flush = (t, none)) : R sent t.output := by
  obtain ⟨n, hn⟩ := flush_eq_none hflush
  exact hR.flush h hn

theorem write_tracks (h : R sent s.output) (hwrite : s.write text = (t, none)) :
    R (sent ++ [text]) t.output := by
  rcases hsend : s.send text with ⟨o, ⟨n, _ | e⟩ | message⟩
  · rw [write_sent hsend] at hwrite
    exact flush_tracks hR (s := { s with output := o }) (hR.send h hsend) hwrite
  · have hhalts := (WriteFails.send hsend).write_halts
    rw [hwrite] at hhalts
    cases hhalts
  · unfold send at hsend
    simp only [write, hsend, afterCall] at hwrite
    cases hwrite

theorem perform_tracks (h : R sent s.output) {effect : Effect}
    (hperform : s.perform effect = (t, none)) : R (sent ++ effect.text?.toList) t.output := by
  cases effect with
  | next m =>
    cases hperform
    exact (List.append_nil sent).symm ▸ h
  | emit text m =>
    rcases hwrite : { s with machine := m }.write text with ⟨u, _ | a⟩
    · have hu : R (sent ++ [text]) u.output := 
        write_tracks (s := { s with machine := m }) hR h hwrite
      rw [perform, hwrite] at hperform
      cases hperform
      exact hu
    · rw [perform, hwrite] at hperform
      cases hperform
  | fault f m =>
    obtain ⟨u, hhalt, -⟩ := { s with machine := m }.halt_eq (.fault f)
    rw [perform, hhalt] at hperform
    cases hperform
  | stuck => cases hperform

theorem step_tracks (h : R sent s.output) (hstep : s.step = (t, none)) :
    R (sent ++ s.text?.toList) t.output := by
  unfold step at hstep
  unfold text?
  cases hfetch : s.machine.fetch? with
  | none =>
    rw [hfetch] at hstep
    cases hstep
  | some op =>
    have houtput := s.traceOp_output op
    rcases htrace : s.traceOp op with ⟨u, _ | a⟩
    · rw [htrace] at houtput
      simp only [hfetch, htrace] at hstep ⊢
      exact perform_tracks hR (houtput ▸ h) hstep
    · simp only [hfetch, htrace] at hstep
      cases hstep

theorem loop_tracks (h : R sent s.output) {i : Interruption} {polls : Nat}
    (hloop : s.loop i polls = (t, none)) : R (sent ++ s.texts polls) t.output := by
  fun_induction loop i polls s generalizing sent with
  | case1 s _ u _ =>
    have hhalt := halt_abort u (.interrupted i)
    rw [hloop] at hhalt
    cases hhalt
  | case2 s hrunning u hstep polls ih =>
    rw [texts, if_pos hrunning, hstep]
    simp only [← List.append_assoc]
    exact ih (step_tracks hR h hstep) hloop
  | case3 polls s _ hne => exact absurd hloop (hne t)
  | case4 polls s hrunning =>
    cases hloop
    rw [texts, if_neg hrunning, List.append_nil]
    exact h

/-- What holds of the texts of a run that ends well, before its last flush. -/
theorem run_tracks (h : R [] s.output) {budget : Budget} {src : Bytes}
    (hrun : s.run budget src = (t, none)) :
    ∃ (u : Session) (sent : List Bytes), s.written budget src = sent.flatMap Terminal.encode ∧
      R sent u.output ∧ u.flush = (t, none) := by
  rw [run] at hrun
  rw [written]
  rcases s.load_changes src with ⟨u, a, hload, -⟩ | ⟨u, d, program, hload, -, haccepted⟩
  · rw [hload] at hrun
    cases hrun
  · rw [hload] at hrun ⊢
    rw [← haccepted.output] at h
    rcases hloop : (u.setIndent (u.indent ++ lit "\t")).loop budget.interruption budget.polls with
      ⟨v, _ | a⟩
    · have hv := loop_tracks (s := u.setIndent (u.indent ++ lit "\t")) hR h hloop
      simp only [finish, exec, hloop] at hrun
      exact ⟨v.setIndent u.indent, _, rfl, hv, hrun⟩
    · simp only [finish, exec, hloop] at hrun
      cases hrun

end

end Session

/-! ## What is lost -/

namespace Device

/-- The device takes no more than it is offered. -/
theorem taken_length_le (calls : List Call) :
    (taken calls).length ≤ (calls.filterMap Call.offered?).flatten.length := by
  induction calls with
  | nil => exact Nat.le_refl _
  | cons call calls ih =>
    cases call with
    | write offered n =>
      simp only [taken, List.filterMap_cons, Call.offered?, List.flatten_cons, List.length_append,
        List.length_take]
      omega
    | flush => exact ih

/-- A device got all it was offered if it never took less. -/
theorem taken_eq_iff (calls : List Call) :
    taken calls = (calls.filterMap Call.offered?).flatten ↔
      ∀ offered n, .write offered n ∈ calls → offered.length ≤ n := by
  induction calls with
  | nil => simp [taken]
  | cons call calls ih =>
    cases call with
    | write offered n =>
      have hle := taken_length_le calls
      simp only [taken, List.filterMap_cons, Call.offered?, List.flatten_cons, List.mem_cons,
        Call.write.injEq]
      constructor
      · intro heq
        have hlength := congrArg List.length heq
        simp only [List.length_append, List.length_take] at hlength
        have hn : offered.length ≤ n := by omega
        rw [List.take_of_length_le hn, List.append_cancel_left_eq, ih] at heq
        rintro offered' n' (⟨rfl, rfl⟩ | hmem)
        · exact hn
        · exact heq offered' n' hmem
      · intro hall
        rw [List.take_of_length_le (hall offered n (.inl ⟨rfl, rfl⟩)),
          ih.2 fun offered' n' hmem => hall offered' n' (.inr hmem)]
    | flush =>
      simp only [taken, List.filterMap_cons, Call.offered?, List.mem_cons, reduceCtorEq, false_or]
      exact ih

end Device

namespace Output

/-- Each stream of `o` has got the texts that were sent. -/
def Got (before : Output) (sent : List Bytes) (o : Output) : Prop :=
  List.Forall₂ (Stream.Adds (sent.flatMap Terminal.encode)) before o

/-- Nothing is lost if a lone stream without a buffer reports what it does not take. -/
theorem keeps_got {before : Output}
    (hlone : ∀ b, before = [b] → b.Direct → b.behavior.Lawful) : Keeps before.Got where
  send := by
    intro sent text s o n h hsend
    have hmore : (sent ++ [text]).flatMap Terminal.encode =
        sent.flatMap Terminal.encode ++ Terminal.encode text := by simp
    unfold Got at h ⊢
    rw [hmore]
    rcases Session.send_done hsend with ⟨stream, stream', hs, rfl, hcall⟩ | ⟨-, hcalls⟩
    · rw [hs] at h
      obtain ⟨b, _, hb, hnil, rfl⟩ := List.forall₂_cons_right_iff.1 h
      obtain rfl := List.forall₂_nil_right_iff.1 hnil
      have hcount : stream.write (Terminal.encode text) = (stream', .done n none) →
          stream.Direct → n = (Terminal.encode text).length := fun hwrite hstream =>
        Stream.count_of_lawful (hb.behavior ▸ hlone b rfl (hb.direct.1 hstream)) hwrite hstream
      refine .cons (hb.trans ?_) .nil
      rcases hcall with hwrite | hwrite
      · exact Stream.write_adds hwrite (hcount hwrite)
      · exact Stream.writeText_adds hwrite fun hstream =>
          hcount (Stream.writeText_eq hstream _ ▸ hwrite) hstream
    · refine forall₂_trans ?_ h hcalls
      exact fun b stream stream' hb hwrite => hb.trans (Stream.write_adds hwrite fun _ => rfl)
  flush := by
    intro sent o o' n h hflush
    refine forall₂_trans ?_ h (flush_done hflush)
    rintro b s s' hb ⟨k, hk⟩
    have hadds := hb.trans (Stream.flush_adds hk).1
    rwa [List.append_nil] at hadds

/-- A lone stream without a buffer is offered each text that is sent in one call. -/
def Saw (before : Stream) (sent : List Bytes) (o : Output) : Prop :=
  ∃ s new, o = [s] ∧ s.Direct ∧ s.device.calls = before.device.calls ++ new ∧
    new.filterMap Call.offered? = sent.map Terminal.encode

theorem keeps_saw (before : Stream) : Keeps (Saw before) where
  send := by
    rintro sent text s o n ⟨stream, new, hs, hdirect, hcalls, hoffered⟩ hsend
    rcases Session.send_done hsend with ⟨stream₁, stream', hs₁, rfl, hcall⟩ | ⟨hmany, -⟩
    · rw [hs] at hs₁
      cases hs₁
      have hwrite : stream.write (Terminal.encode text) = (stream', .done n none) :=
        hcall.elim id fun h => Stream.writeText_eq hdirect _ ▸ h
      obtain ⟨hdirect', k, hk⟩ := Stream.write_calls hdirect (Terminal.encode text)
      rw [hwrite] at hdirect' hk
      refine ⟨stream', new ++ [.write (Terminal.encode text) k], rfl, hdirect', ?_, ?_⟩
      · rw [hk, hcalls, List.append_assoc]
      · rw [List.filterMap_append, hoffered, List.map_append]
        rfl
    · rw [hs] at hmany
      exact absurd rfl hmany
  flush := by
    rintro sent o o' n ⟨stream, new, rfl, hdirect, hcalls, hoffered⟩ hflush
    obtain ⟨stream', _, ⟨k, hk⟩, hnil, rfl⟩ := List.forall₂_cons_left_iff.1 (flush_done hflush)
    obtain rfl := List.forall₂_nil_left_iff.1 hnil
    obtain ⟨hdirect', new', hnew', hnone⟩ := Stream.flush_calls hdirect
    rw [hk] at hdirect' hnew'
    refine ⟨stream', new ++ new', rfl, hdirect', ?_, ?_⟩
    · rw [hnew', hcalls, List.append_assoc]
    · rw [List.filterMap_append, hoffered, hnone, List.append_nil]

end Output

namespace Session

/-- Let an evaluation end without an error, however the devices misbehave. Then every device has got
what the instructions wrote, behind what its stream held back before, unless there is a lone stream
without a buffer that does not report what it leaves. Of such a stream, the device has got all of it
if and only if it took all it was offered at each call. -/
theorem eval_losses {s t : Session} {budget : Budget} {src : Bytes}
    (h : s.eval budget src = (t, none)) :
    ((∀ b, s.output = [b] → b.Direct → b.behavior.Lawful) →
      List.Forall₂ (fun before after => after.received = before.content ++ s.written budget src)
        s.output t.output) ∧
    ∀ b, s.output = [b] → b.Direct → ∃ a new, t.output = [a] ∧
      a.device.calls = b.device.calls ++ new ∧
      (a.received = b.received ++ s.written budget src ↔
        ∀ offered n, .write offered n ∈ new → offered.length ≤ n) := by
  have hrun := run_of_eval h
  constructor
  · intro hlone
    have hstart : s.output.Got [] s.output := List.forall₂_same.2 fun b _ => .refl b
    obtain ⟨u, sent, hwritten, hgot, hflush⟩ := run_tracks (Output.keeps_got hlone) hstart hrun
    obtain ⟨n, hn⟩ := flush_eq_none hflush
    rw [hwritten]
    refine Output.forall₂_trans ?_ hgot (Output.flush_done hn)
    rintro before held after hadds ⟨k, hk⟩
    rw [(Stream.flush_adds hk).2, hadds.content]
  · intro b hb hdirect
    have hstart : Output.Saw b [] s.output :=
      ⟨b, [], hb, hdirect, (List.append_nil _).symm, rfl⟩
    obtain ⟨u, sent, hwritten, hsaw, hflush⟩ := run_tracks (Output.keeps_saw b) hstart hrun
    obtain ⟨a, new, ha, -, hcalls, hoffered⟩ := flush_tracks (Output.keeps_saw b) hsaw hflush
    refine ⟨a, new, ha, hcalls, ?_⟩
    have hreceived : a.received = b.received ++ Device.taken new := by
      rw [Stream.received, Device.received, hcalls, Device.taken_append]
      rfl
    rw [hreceived, hwritten, List.append_cancel_left_eq, List.flatMap_def, ← hoffered,
      Device.taken_eq_iff]

/-- Takes half of what it is offered first, and reports nothing. -/
def halfAtFirst : Behavior where
  write call offered := .done (if call = 1 then offered / 2 else offered) none
  flush _ := .done 0 none

/-- A device that misbehaves in a run of two writes, and is the only one. It has not got all of the
text although the evaluation ends without an error, so it left something at one of its calls. -/
theorem eval_losses_lone : ∃ s t a calls,
    s = new (.of []) [.output (some (.flushing { behavior := halfAtFirst }))] ∧
    s.eval { polls := 9 } (lit "\"hello\" print \"world\" print") = (t, none) ∧
    s.written { polls := 9 } (lit "\"hello\" print \"world\" print") = lit "helloworld" ∧
    t.output = [a] ∧ a.received = lit "heworld" ∧ a.device.calls = calls ∧
    ∃ offered n, .write offered n ∈ calls ∧ n < offered.length := by
  obtain ⟨s, t, hs, heval, hwritten, hreceived⟩ : ∃ s t,
      s = new (.of []) [.output (some (.flushing { behavior := halfAtFirst }))] ∧
      s.eval { polls := 9 } (lit "\"hello\" print \"world\" print") = (t, none) ∧
      s.written { polls := 9 } (lit "\"hello\" print \"world\" print") = lit "helloworld" ∧
      t.output.map Stream.received = [lit "heworld"] :=
    ⟨_, _, rfl, by cbv, by cbv, by cbv⟩
  have houtput : s.output = [.flushing { behavior := halfAtFirst }] := by
    rw [hs]
    rfl
  obtain ⟨a, calls, ha, hcalls, hall⟩ := (eval_losses heval).2 _ houtput trivial
  rw [ha, List.map_singleton, List.singleton_inj] at hreceived
  refine ⟨s, t, a, calls, hs, heval, hwritten, ha, hreceived, hcalls, ?_⟩
  have hlost : ¬ ∀ offered n, .write offered n ∈ calls → offered.length ≤ n := by
    rw [← hall, hreceived, hwritten]
    decide +kernel
  simpa only [not_forall, not_le, exists_prop] using hlost

/-- A lone stream without a buffer: half of the text is lost, and the evaluation ends without an
error. -/
theorem eval_losses_silent : ∃ s t,
    s = new (.of []) [.output (some (.flushing { behavior := halfAtFirst }))] ∧
    s.eval { polls := 9 } (lit "\"hello\" print") = (t, none) ∧
    s.written { polls := 9 } (lit "\"hello\" print") = lit "hello" ∧
    t.output.map Stream.received = [lit "he"] :=
  ⟨_, _, rfl, by cbv, by cbv, by cbv⟩

end Session

end StackLang
