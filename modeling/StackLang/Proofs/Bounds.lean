import Mathlib
import StackLang.Proofs.Halting
import StackLang.Proofs.Indexing
import StackLang.Proofs.Limits

/-!
# Steps stay in range

The instructions on cells do what `Op.run` says, so that none of them misses a cell, in whatever
state it finds the machine: the heights of the stacks are checked before anything is taken from
them, and handles, kinds and builtins before they are looked up. Nothing is assumed of the values,
the pending calls, the loops, the definitions, the limits or the operands.

* `Indexed.run_effect`: every known instruction, on cells and on stacks.
* `Indexed.step_eq`: a step of a session finds every cell, traced or not.
* `Session.step_in_range`: so it never panics by itself; it succeeds, or halts with an error.
-/

namespace StackLang

namespace Indexed

/-! ## Routines -/

section

variable {α β : Type} {m m' : Machine}

theorem bind_ok {x : Routine α} {a : α} (f : α → Routine β) (h : x.run m = .ok a m') :
    (x >>= f).run m = (f a).run m' := by
  rw [EStateM.run] at h
  simp only [EStateM.run, bind, EStateM.bind, h]

theorem bind_error {x : Routine α} {c : Cut} (f : α → Routine β) (h : x.run m = .error c m') :
    (x >>= f).run m = .error c m' := by
  rw [EStateM.run] at h
  simp only [EStateM.run, bind, EStateM.bind, h]

theorem get_bind (f : Machine → Routine β) : (get >>= f).run m = (f m).run m := rfl

theorem reach_eq {o : Option α} {a : α} (h : o = some a) : (reach o).run m = .ok a m := by
  rw [h]
  rfl

theorem mismatch_eq (e : Mismatch) :
    (mismatch e : Routine α).run m = .error (.fault (.mismatch e)) m := by
  rw [mismatch, bind_ok _ (reach_eq (describe_eq e))]
  rfl

theorem failIf_pos {condition : Prop} [Decidable condition] (h : condition) (f : Fault) :
    (failIf condition f).run m = .error (.fault f) m := by
  rw [failIf, if_pos h]
  rfl

theorem failIf_neg {condition : Prop} [Decidable condition] (h : ¬condition) (f : Fault) :
    (failIf condition f).run m = .ok () m := by
  rw [failIf, if_neg h]
  rfl

theorem length_values (m : Machine) : m.values.length = m.stack.items.length :=
  List.length_reverse

theorem need_held {n : Nat} (word : String) (h : n ≤ m.stack.items.length) :
    (need word n).run m = .ok () m := by
  rw [need, get_bind]
  exact failIf_neg (by rw [length_values]; omega) _

theorem need_short {n : Nat} (word : String) (h : m.stack.items.length < n) :
    (need word n).run m = .error (.fault (.underflow word n m.stack.height)) m := by
  rw [need, get_bind, failIf_pos (by rwa [length_values]), length_values, m.stack.height_eq]

/-- A value that is reached for by its distance from the top. -/
theorem reach_value {i : Int} {n : Nat} {v : Value} (h : m.stack.items[n]? = some v)
    (hi : i = m.values.length - 1 - n) : (reach (cell m.values i)).run m = .ok v m := by
  rw [Machine.values, cell_top m.stack.items hi]
  exact reach_eq h

theorem peek_eq {n : Nat} {v : Value} (h : m.stack.items[n]? = some v) :
    (peek n).run m = .ok v m := by
  rw [peek, get_bind]
  exact reach_value h rfl

@[simp] theorem withItems_items (items : List Value) :
    (withItems m items).stack.items = items := rfl

@[simp] theorem withItems_withItems (items items' : List Value) :
    withItems (withItems m items) items' = withItems m items' := rfl

theorem withItems_eq {items : List Value} {n : Nat} {vs : List Value}
    (h : items = vs ++ m.stack.items.drop n) :
    withItems m items = { m with stack := m.stack.replace n vs } := by
  have hstack : Stack.ofList items = m.stack.replace n vs := Stack.eq_of_items h
  rw [← hstack]
  rfl

theorem setValues_eq (items : List Value) :
    (setValues items.reverse).run m = .ok () (withItems m items) := by
  conv_rhs => rw [← items.reverse_reverse]
  rfl

theorem drop_eq {n : Nat} (h : n ≤ m.stack.items.length) :
    (drop n).run m = .ok () (m.drop n) := by
  rw [drop, get_bind, Machine.values, bind_ok _ (reach_eq (front_top h rfl)), setValues_eq,
    withItems_eq (List.nil_append _).symm]
  rfl

theorem poke_eq {i : Int} {n : Nat} (h : n < m.stack.items.length)
    (hi : i = m.stack.items.length - 1 - n) (v : Value) :
    (poke i v).run m = .ok () (withItems m (m.stack.items.set n v)) := by
  rw [← List.length_reverse] at hi
  rw [poke, get_bind, Machine.values, bind_ok _ (reach_eq (store_top h v hi)), setValues_eq]

end

/-! ## Instructions -/

section

variable {m : Machine}

theorem need_effect (word : String) (n : Nat) (f : Unit → Routine (Option Bytes)) :
    effect? ((need word n >>= f).run m) =
      if m.stack.items.length < n then some (m.underflow word n) else effect? ((f ()).run m) := by
  split
  · rename_i h
    rw [bind_error _ (need_short word h)]
    rfl
  · rename_i h
    rw [bind_ok _ (need_held word (by omega))]

theorem push_effect (v : Value) : effect? ((runPush v).run m) = some (m.push v) := by
  have hfull : m.stack.full m.stackLimit = true ↔
      m.stackLimit ≠ 0 ∧ m.stackLimit ≤ m.values.length := by
    rw [Stack.full_iff, m.stack.height_eq, length_values]
  rw [runPush, Machine.push]
  split
  · rename_i h
    have hpush : (push v).run m = .error (.fault (.stackOverflow m.stackLimit)) m := by
      rw [push, get_bind, bind_error _ (failIf_pos (hfull.1 h) _)]
    rw [bind_error _ hpush]
    rfl
  · rename_i h
    have hpush : (push v).run m = .ok () { m with stack := m.stack.push v } := by
      rw [push, get_bind, bind_ok _ (failIf_neg (mt hfull.2 h) _)]
      have hvalues : m.values ++ [v] = (v :: m.stack.items).reverse := by simp [Machine.values]
      have hitems : v :: m.stack.items = [v] ++ m.stack.items.drop 0 := rfl
      rw [hvalues, setValues_eq, withItems_eq hitems]
      rfl
    rw [bind_ok _ hpush]
    rfl

theorem mismatch_effect (e : Mismatch) : effect? ((mismatch e).run m) = some (m.mismatch e) := by
  rw [mismatch_eq]
  rfl

/-- An instruction that leaves other values in place of the top ones. -/
theorem replace_effect {items : List Value} {n : Nat} {vs : List Value}
    (h : items = vs ++ m.stack.items.drop n) :
    effect? (done.run (withItems m items)) = some (m.replace n vs) := by
  rw [withItems_eq h]
  rfl

/-! ### Values -/

theorem runDrop_effect : effect? (runDrop.run m) = some (Op.drop.run m) := by
  rw [runDrop, need_effect]
  rcases hitems : m.stack.items with _ | ⟨v, rest⟩
  · simp [Op.run, hitems]
  · rw [if_neg (by simp), bind_ok _ (drop_eq (by simp [hitems]))]
    simp only [Op.run, hitems]
    rfl

theorem runDup_effect : effect? (runDup.run m) = some (Op.dup.run m) := by
  rw [runDup, need_effect]
  rcases hitems : m.stack.items with _ | ⟨v, rest⟩
  · simp [Op.run, hitems]
  · have hv : m.stack.items[0]? = some v := by simp [hitems]
    rw [if_neg (by simp), bind_ok _ (peek_eq hv), push_effect]
    simp only [Op.run, hitems]

theorem runNot_effect : effect? (runNot.run m) = some (Op.not.run m) := by
  rw [runNot, need_effect]
  rcases hitems : m.stack.items with _ | ⟨v, rest⟩
  · simp [Op.run, hitems]
  · have hv : m.stack.items[0]? = some v := by simp [hitems]
    rw [if_neg (by simp), get_bind, bind_ok _ (reach_value hv (by omega)),
      bind_ok _ (poke_eq (n := 0) (by simp [hitems]) (by simp [length_values]) _)]
    simp only [Op.run, hitems]
    exact replace_effect (by simp [hitems])

theorem runSwap_effect : effect? (runSwap.run m) = some (Op.swap.run m) := by
  rw [runSwap, need_effect]
  rcases hitems : m.stack.items with _ | ⟨b, _ | ⟨a, rest⟩⟩
  · simp [Op.run, hitems]
  · simp [Op.run, hitems]
  · have hheight : m.stack.items.length = rest.length + 2 := by simp [hitems]
    have ha : m.stack.items[1]? = some a := by simp [hitems]
    have hb : m.stack.items[0]? = some b := by simp [hitems]
    rw [if_neg (by simp), get_bind, bind_ok _ (reach_value ha (by omega)),
      bind_ok _ (reach_value hb (by omega)),
      bind_ok _ (poke_eq (n := 1) (by omega) (by rw [length_values]; omega) b),
      bind_ok _ (poke_eq (n := 0) (by simp [hheight]) (by simp [length_values]) a)]
    simp only [Op.run, hitems, withItems_withItems, withItems_items]
    exact replace_effect (by simp [hitems])

/-- The top three cells, from the lowest one on. -/
theorem back_three {a b c : Value} {rest : List Value} (h : m.stack.items = c :: b :: a :: rest) :
    back m.values (m.values.length - 3) = some [a, b, c] := by
  rw [Machine.values, h]
  exact back_top (n := 3) (by simp) rfl

theorem runTurn_effect (word : String) (turn : Value → Value → Value → Value × Value × Value) :
    effect? ((runTurn word turn).run m) = some (match m.stack.items with
      | c :: b :: a :: _ => m.replace 3 [(turn a b c).2.2, (turn a b c).2.1, (turn a b c).1]
      | _ => m.underflow word 3) := by
  rw [runTurn, need_effect]
  rcases hitems : m.stack.items with _ | ⟨c, _ | ⟨b, _ | ⟨a, rest⟩⟩⟩
  · simp
  · simp
  · simp
  · have hheight : m.stack.items.length = rest.length + 3 := by simp [hitems]
    have h₀ : cell [a, b, c] 0 = some a := rfl
    have h₁ : cell [a, b, c] 1 = some b := rfl
    have h₂ : cell [a, b, c] 2 = some c := rfl
    rw [if_neg (by simp), get_bind, bind_ok _ (reach_eq (back_three hitems)),
      bind_ok _ (reach_eq h₀), bind_ok _ (reach_eq h₁), bind_ok _ (reach_eq h₂),
      bind_ok _ (poke_eq (n := 2) (by omega) (by rw [length_values]; omega) _),
      bind_ok _ (poke_eq (n := 1) (by simp [hheight]) (by simp [length_values]; omega) _),
      bind_ok _ (poke_eq (n := 0) (by simp [hheight]) (by simp [length_values]; omega) _)]
    simp only [hitems, withItems_withItems, withItems_items]
    exact replace_effect (by simp [hitems])

theorem runSelect_effect : effect? (runSelect.run m) = some (Op.select.run m) := by
  rw [runSelect, need_effect]
  rcases hitems : m.stack.items with _ | ⟨f, _ | ⟨t, _ | ⟨c, rest⟩⟩⟩
  · simp [Op.run, hitems]
  · simp [Op.run, hitems]
  · simp [Op.run, hitems]
  · have hheight : m.stack.items.length = rest.length + 3 := by simp [hitems]
    have hflag : cell [c, t, f] 0 = some c := rfl
    have hkept : cell [c, t, f] (if c.truth then 1 else 2) = some (if c.truth then t else f) := by
      split <;> rfl
    rw [if_neg (by simp), get_bind, bind_ok _ (reach_eq (back_three hitems)),
      bind_ok _ (reach_eq hflag), bind_ok _ (reach_eq hkept),
      bind_ok _ (poke_eq (n := 2) (by omega) (by rw [length_values]; omega) _), get_bind,
      Machine.values, bind_ok _ (reach_eq (front_top (n := 2) (by simp [hheight])
        (by simp [Machine.values]; omega))),
      bind_ok _ (setValues_eq _), withItems_withItems, withItems_items]
    simp only [Op.run, hitems]
    exact replace_effect (by simp [hitems])

theorem runBinary_effect (word : String) (f : Value → Value → Value) :
    effect? ((runBinary word f).run m) = some (match m.stack.items with
      | b :: a :: _ => (m.drop 2).push (f a b)
      | _ => m.underflow word 2) := by
  rw [runBinary, need_effect]
  rcases hitems : m.stack.items with _ | ⟨b, _ | ⟨a, rest⟩⟩
  · simp
  · simp
  · have ha : m.stack.items[1]? = some a := by simp [hitems]
    have hb : m.stack.items[0]? = some b := by simp [hitems]
    rw [if_neg (by simp), bind_ok _ (peek_eq ha), bind_ok _ (peek_eq hb),
      bind_ok _ (drop_eq (by simp [hitems])), push_effect]

/-! ### Integers -/

/-- What an instruction does with two integers, once they are off the stack. -/
theorem popIntegers_effect (word : String) {f : Int64 × Int64 → Routine (Option Bytes)}
    {g : Int64 → Int64 → Machine → Effect}
    (h : ∀ a b m, effect? ((f (a, b)).run m) = some (g a b m)) :
    effect? ((popIntegers word >>= f).run m) = some (m.popIntegers word g) := by
  simp only [Machine.popIntegers]
  rcases hitems : m.stack.items with _ | ⟨b, _ | ⟨a, rest⟩⟩
  · rw [popIntegers, bind_error _ (bind_error _ (need_short word (by simp [hitems])))]
    rfl
  · rw [popIntegers, bind_error _ (bind_error _ (need_short word (by simp [hitems])))]
    rfl
  · have ha : m.stack.items[1]? = some a := by simp [hitems]
    have hb : m.stack.items[0]? = some b := by simp [hitems]
    have hpeeks : (popIntegers word).run m = _ :=
      (bind_ok _ (need_held word (by simp [hitems]))).trans
        ((bind_ok _ (peek_eq ha)).trans (bind_ok _ (peek_eq hb)))
    have hmismatch : ∀ e, (popIntegers word).run m = (mismatch e).run m →
        effect? ((popIntegers word >>= f).run m) = some (m.mismatch e) := by
      intro e he
      rw [bind_error _ (he.trans (mismatch_eq e))]
      rfl
    cases a with
    | int a =>
      cases b with
      | int b =>
        rw [bind_ok _ (hpeeks.trans (bind_ok _ (drop_eq (by simp [hitems]))))]
        exact h a b (m.drop 2)
      | _ => exact hmismatch _ hpeeks
    | _ => exact hmismatch _ hpeeks

theorem runIntegers_effect (word : String) (f : Int64 → Int64 → Value) :
    effect? ((runIntegers word f).run m) =
      some (m.popIntegers word fun a b m => m.push (f a b)) :=
  popIntegers_effect word fun a b _ => push_effect (f a b)

theorem runDiv_effect : effect? (runDiv.run m) = some (Op.div.run m) := by
  rw [runDiv, Op.run]
  refine popIntegers_effect "/" ?_
  intro a b m
  by_cases hb : b = 0
  · rw [if_pos hb, bind_error _ (failIf_pos hb _)]
    rfl
  · have hquotient : quotient a b = some (a / b) := by rw [quotient, if_neg hb]
    rw [if_neg hb, bind_ok _ (failIf_neg hb _), bind_ok _ (reach_eq hquotient), push_effect]

/-! ### Code -/

theorem runBuiltin_effect {i : Int} {b : Builtin} (hb : Builtin.ofIndex? i = some b) :
    effect? ((runBuiltin b).run m) = some (m.dispatch (.builtin i)) := by
  simp only [Machine.dispatch, hb]
  cases b with
  | print =>
    rw [runBuiltin, need_effect]
    rcases hitems : m.stack.items with _ | ⟨v, rest⟩
    · simp
    · have hv : m.stack.items[0]? = some v := by simp [hitems]
      rw [if_neg (by simp), bind_ok _ (peek_eq hv), get_bind,
        bind_ok _ (reach_eq (formatValue_eq m.symbols .raw v))]
      rfl
  | nl => rfl
  | stack =>
    rw [runBuiltin, get_bind, bind_ok _ (reach_eq (formatValues_eq m.symbols m.values))]
    rfl

theorem dispatch_effect (c : Code) : effect? ((dispatch c).run m) = some (m.dispatch c) := by
  cases c with
  | block start =>
    have hfull : m.calls.full m.callLimit = true ↔
        m.callLimit ≠ 0 ∧ m.callLimit ≤ m.calls.items.reverse.length := by
      rw [Stack.full_iff, m.calls.height_eq, List.length_reverse]
    rw [dispatch, Machine.dispatch, get_bind]
    split
    · rename_i h
      have hcall : (pushCall m.pc).run m = .error (.fault (.callOverflow m.callLimit)) m := by
        rw [pushCall, get_bind]
        exact bind_error _ (failIf_pos (hfull.1 h) _)
      rw [bind_error _ hcall]
      rfl
    · rename_i h
      have hcall : (pushCall m.pc).run m = .ok () { m with calls := m.calls.push m.pc } := by
        have hpushed : Stack.ofList (m.calls.items.reverse ++ [m.pc]).reverse = m.calls.push m.pc :=
          Stack.eq_of_items (by simp)
        rw [pushCall, get_bind, ← hpushed]
        exact bind_ok _ (failIf_neg (mt hfull.2 h) _)
      rw [bind_ok _ hcall]
      rfl
  | builtin i =>
    rw [dispatch]
    split
    · rename_i hrange
      have hnone : Builtin.ofIndex? i = none := by
        rw [ofIndex?_eq, cell_eq_none_iff]
        omega
      simp only [Machine.dispatch, hnone]
      exact mismatch_effect _
    · rename_i hrange
      have hrange : 0 ≤ i ∧ i < Builtin.all.length := by omega
      obtain ⟨b, hb⟩ := cell_of_range hrange
      rw [bind_ok _ (reach_eq hb), runBuiltin_effect (ofIndex?_eq i ▸ hb)]
  | other tag a => exact mismatch_effect _

theorem runCall_effect (h : Handle) : effect? ((runCall h).run m) = some ((Op.call h).run m) := by
  rw [runCall, get_bind, Op.run]
  cases m.words.find? h with
  | some c => exact dispatch_effect c
  | none =>
    simp only
    rw [bind_ok _ (reach_eq (text_eq m.symbols h))]
    rfl

theorem runReturn_effect : effect? (runReturn.run m) = some (Op.ret.run m) := by
  rw [runReturn, Op.run]
  rcases hitems : m.calls.items with _ | ⟨a, rest⟩
  · have hpop : popCall.run m = .error (.fault (.noCall m.pc)) m := by
      rw [popCall, get_bind]
      exact bind_error _ (failIf_pos (by simp [hitems]) _)
    rw [bind_error _ hpop]
    rfl
  · have hpop : popCall.run m = .ok a { m with calls := m.calls.drop 1 } := by
      have ha : cell m.calls.items.reverse (m.calls.items.reverse.length - 1) = some a := by
        rw [cell_top (n := 0) m.calls.items (by simp), hitems]
        rfl
      have hrest : Stack.ofList (m.calls.items.drop 1).reverse.reverse = m.calls.drop 1 :=
        Stack.eq_of_items (by simp)
      have hfront : front m.calls.items.reverse (m.calls.items.reverse.length - 1) =
          some (m.calls.items.drop 1).reverse := front_top (by simp [hitems]) rfl
      rw [popCall, get_bind, bind_ok _ (failIf_neg (by simp [hitems]) _), bind_ok _ (reach_eq ha),
        bind_ok _ (reach_eq hfront), ← hrest]
      rfl
    rw [bind_ok _ hpop, get_bind]
    rfl

theorem runExec_effect : effect? (runExec.run m) = some (Op.exec.run m) := by
  rw [runExec, need_effect, Op.run, Op.runExec]
  rcases hitems : m.stack.items with _ | ⟨v, rest⟩
  · simp
  · have hv : m.stack.items[0]? = some v := by simp [hitems]
    rw [if_neg (by simp), bind_ok _ (peek_eq hv)]
    cases v with
    | code c =>
      simp only
      rw [bind_ok _ (drop_eq (by simp [hitems])), dispatch_effect]
    | _ =>
      simp only
      rw [bind_ok _ (peek_eq hv)]
      exact mismatch_effect _

theorem runDefine_effect : effect? (runDefine.run m) = some (Op.define.run m) := by
  rw [runDefine, need_effect, Op.run, Op.runDefine]
  rcases hitems : m.stack.items with _ | ⟨s, _ | ⟨c, rest⟩⟩
  · simp
  · simp
  · have hc : m.stack.items[1]? = some c := by simp [hitems]
    have hs : m.stack.items[0]? = some s := by simp [hitems]
    rw [if_neg (by simp), bind_ok _ (peek_eq hs), bind_ok _ (peek_eq hc)]
    cases c with
    | code c =>
      cases s with
      | sym h =>
        simp only
        rw [bind_ok _ (drop_eq (by simp [hitems]))]
        rfl
      | _ => exact mismatch_effect _
    | _ => exact mismatch_effect _

theorem runLoopEnter_effect : effect? (runLoopEnter.run m) = some (Op.loopEnter.run m) := by
  rw [runLoopEnter, need_effect, Op.run, Op.runLoopEnter]
  rcases hitems : m.stack.items with _ | ⟨b, _ | ⟨c, rest⟩⟩
  · simp
  · simp
  · have hc : m.stack.items[1]? = some c := by simp [hitems]
    have hb : m.stack.items[0]? = some b := by simp [hitems]
    rw [if_neg (by simp), bind_ok _ (peek_eq hc), bind_ok _ (peek_eq hb)]
    cases c with
    | code c =>
      cases b with
      | code b =>
        simp only
        rw [bind_ok _ (drop_eq (by simp [hitems]))]
        rfl
      | _ => exact mismatch_effect _
    | _ => exact mismatch_effect _

theorem runAdd_effect : effect? (runAdd.run m) = some (Op.add.run m) := by
  rw [runAdd, need_effect, Op.run, Op.runAdd]
  rcases hitems : m.stack.items with _ | ⟨b, _ | ⟨a, rest⟩⟩
  · simp
  · simp
  · have ha : m.stack.items[1]? = some a := by simp [hitems]
    have hb : m.stack.items[0]? = some b := by simp [hitems]
    rw [if_neg (by simp), bind_ok _ (peek_eq ha), bind_ok _ (peek_eq hb)]
    cases a with
    | int a =>
      cases b with
      | int b =>
        simp only
        rw [bind_ok _ (drop_eq (by simp [hitems])), push_effect]
      | _ => exact mismatch_effect _
    | str a =>
      cases b with
      | str b =>
        simp only
        rw [bind_ok _ (drop_eq (by simp [hitems])), get_bind,
          bind_ok _ (reach_eq (text_eq _ a)), bind_ok _ (reach_eq (text_eq _ b)),
          ← Registry.joined_eq]
        exact push_effect _
      | _ => exact mismatch_effect _
    | _ => exact mismatch_effect _

/-! ### Loops -/

theorem innermost_effect {f : Loop → Routine (Option Bytes)} {g : Loop → List Loop → Effect}
    (h : ∀ l loops, m.loops = l :: loops → effect? ((f l).run m) = some (g l loops)) :
    effect? ((innermost >>= f).run m) = some (m.withLoop g) := by
  rw [Machine.withLoop]
  rcases hloops : m.loops with _ | ⟨l, loops⟩
  · have hloop : innermost.run m = .error (.fault (.noLoop m.pc)) m := by
      rw [innermost, get_bind]
      exact bind_error _ (failIf_pos (by simp [hloops]) _)
    rw [bind_error _ hloop]
    rfl
  · have hloop : innermost.run m = .ok l m := by
      rw [innermost, get_bind, bind_ok _ (failIf_neg (by simp [hloops]) _),
        cell_top (n := 0) m.loops (by simp), hloops]
      rfl
    rw [bind_ok _ hloop]
    exact h l loops hloops

theorem runLoopExit_effect (target : Int) :
    effect? ((runLoopExit target).run m) = some ((Op.loopExit target).run m) := by
  rw [runLoopExit, Op.run]
  refine innermost_effect ?_
  intro l loops hloops
  rw [need_effect]
  rcases hitems : m.stack.items with _ | ⟨v, rest⟩
  · simp
  · have hv : m.stack.items[0]? = some v := by simp [hitems]
    rw [if_neg (by simp), bind_ok _ (peek_eq hv), bind_ok _ (drop_eq (by simp [hitems]))]
    by_cases htruth : v.truth = true
    · simp only [if_pos htruth]
      rfl
    · have hloops : (m.drop 1).loops = l :: loops := hloops
      have hfront : front (l :: loops).reverse ((l :: loops).reverse.length - 1) =
          some loops.reverse := front_top (n := 1) (by simp) rfl
      simp only [if_neg htruth]
      rw [get_bind, hloops, bind_ok _ (reach_eq hfront), List.reverse_reverse]
      rfl

/-! ### All instructions -/

theorem handler_effect {op : Op} {handler : Op → Routine (Option Bytes)} {e : Effect}
    (h : cell handlers (opIndex op) = some handler)
    (he : effect? ((handler op).run m) = some e) : effect? ((run op).run m) = some e := by
  rw [run, bind_ok _ (reach_eq h), he]

/-- Every known instruction finds its routine, and the routine finds every cell. -/
theorem run_effect {op : Op} (hknown : ∀ code, op ≠ .other code) :
    effect? ((run op).run m) = some (op.run m) := by
  cases op with
  | push v => exact handler_effect rfl (push_effect v)
  | call h => exact handler_effect rfl (runCall_effect h)
  | ret => exact handler_effect rfl runReturn_effect
  | define => exact handler_effect rfl runDefine_effect
  | add => exact handler_effect rfl runAdd_effect
  | arith f => cases f <;> exact handler_effect rfl (runIntegers_effect _ _)
  | div => exact handler_effect rfl runDiv_effect
  | compare f => cases f <;> exact handler_effect rfl (runIntegers_effect _ _)
  | eq => exact handler_effect rfl (runBinary_effect _ _)
  | drop => exact handler_effect rfl runDrop_effect
  | dup => exact handler_effect rfl runDup_effect
  | swap => exact handler_effect rfl runSwap_effect
  | rot => exact handler_effect rfl (runTurn_effect _ _)
  | unrot => exact handler_effect rfl (runTurn_effect _ _)
  | not => exact handler_effect rfl runNot_effect
  | connect f => cases f <;> exact handler_effect rfl (runBinary_effect _ _)
  | exec => exact handler_effect rfl runExec_effect
  | select => exact handler_effect rfl runSelect_effect
  | loopEnter => exact handler_effect rfl runLoopEnter_effect
  | loopCond => exact handler_effect rfl (innermost_effect fun l _ _ => dispatch_effect l.cond)
  | loopExit target => exact handler_effect rfl (runLoopExit_effect target)
  | loopBody => exact handler_effect rfl (innermost_effect fun l _ _ => dispatch_effect l.body)
  | jump target => exact handler_effect rfl rfl
  | other code => exact absurd rfl (hknown code)

/-! ## Steps -/

theorem fetch?_eq (m : Machine) : m.fetch? = cell m.program.ops.toList m.pc := by
  unfold Machine.fetch? cell
  cases m.pc with
  | ofNat n => exact (Array.getElem?_toList ..).symm
  | negSucc n => rfl

theorem traceOp_eq (s : Session) (op : Op) : traceOp s op = some (s.traceOp op) := by
  unfold traceOp Session.traceOp
  cases s.trace with
  | none => rfl
  | some t => simp [formatOp_eq, formatValues_eq, Machine.formatStack]

/-- Wherever a session stands, it finds every cell for its next instruction. -/
theorem step_eq {s : Session} {op : Op} (hfetch : s.machine.fetch? = some op)
    (hknown : ∀ code, op ≠ .other code) : step s = some s.step := by
  rw [step, Session.step, hfetch, ← fetch?_eq, hfetch]
  simp only [Option.bind_eq_bind, Option.bind_some, traceOp_eq]
  rcases s.traceOp op with ⟨t, _ | a⟩
  · simp [run_effect hknown]
  · rfl

theorem effect?_ne_stuck (result : EStateM.Result Cut Machine (Option Bytes)) :
    effect? result ≠ some .stuck := by
  rcases result with ⟨_ | text, m⟩ | ⟨f | _, m⟩ <;> simp [effect?]

end

end Indexed

namespace Session

/-- A known instruction panics only if a device or the log does. -/
theorem step_calm {s : Session} {op : Op} (hcalm : s.Calm) (hfetch : s.machine.fetch? = some op)
    (hknown : ∀ code, op ≠ .other code) (v : PanicValue) : s.step.2 ≠ some (.panic v) := by
  have hserves := s.traceOp_serves op
  have htraced := traceOp_calm hcalm op
  rcases htrace : s.traceOp op with ⟨t, a⟩
  rw [htrace] at hserves htraced
  obtain rfl : a = none := htraced
  simp only [step, hfetch, htrace]
  cases hrun : op.run t.machine with
  | next m => simp [perform]
  | emit text m =>
    have hwrite := write_serves { t with machine := m } text
    rw [perform]
    generalize { t with machine := m }.write text = written at hwrite ⊢
    obtain ⟨u, _ | a⟩ := written
    · simp
    · rintro ⟨⟩
      obtain ⟨e, he, hexpected⟩ := hwrite.proper _ rfl
      cases he
      have hpanic := (hexpected ((hserves.alike.setMachine m).calm hcalm)).panic
      cases hpanic
  | fault f m =>
    rw [perform, halt_abort]
    simp
  | stuck =>
    have heffect := Indexed.run_effect (m := t.machine) hknown
    rw [hrun] at heffect
    exact absurd heffect (Indexed.effect?_ne_stuck _)

/-- A step at a known instruction reaches only for what is there, whatever the state of the machine.
It succeeds, or halts with a fault or with an error of a device. The table of words is there, be it
empty, as it is in every session that was set up by `new`; a machine that never got one is outside
the model. -/
theorem step_in_range (s : Session) (hcalm : s.Calm) (hstart : 0 ≤ s.machine.pc)
    (hend : s.machine.pc < s.machine.program.ops.size)
    (hknown : ∀ code, s.machine.fetch? ≠ some (.other code)) :
    Indexed.step s = some s.step ∧
      (s.step.2 = none ∨
        (∃ t f, s.StepFails t (.fault f) ∧ s.step.2 = some (.halt (some (.fault f)))) ∨
        ∃ t e, s.StepFails t (.output e) ∧ s.step.2 = some (.halt (some (.output e)))) := by
  obtain ⟨op, hop⟩ := Indexed.cell_of_range
    (show 0 ≤ s.machine.pc ∧ s.machine.pc < s.machine.program.ops.toList.length from
      ⟨hstart, hend⟩)
  have hfetch : s.machine.fetch? = some op := (Indexed.fetch?_eq s.machine).trans hop
  have hknown : ∀ code, op ≠ .other code := by
    rintro code rfl
    exact hknown code hfetch
  refine ⟨Indexed.step_eq hfetch hknown, ?_⟩
  have hpanic := step_calm hcalm hfetch hknown
  have hstops := s.step_stops
  generalize s.step.2 = ended at hpanic hstops ⊢
  cases hstops with
  | none => exact .inl rfl
  | panic v => exact absurd rfl (hpanic v)
  | halt h =>
    obtain ⟨t, h⟩ := h
    cases h with
    | fault hfetch htrace hrun => exact .inr (.inl ⟨_, _, .fault hfetch htrace hrun, rfl⟩)
    | output hfetch htrace hrun hwrite =>
      exact .inr (.inr ⟨_, _, .output hfetch htrace hrun hwrite, rfl⟩)

/-- A session that no source leads to: unknown handles, kinds, code and instructions, addresses
outside the program, and a limit below zero. -/
def garbled : Session where
  machine :=
    { program := ⟨#[.other 200, .add, .jump (-7)], -1⟩
      pc := 1
      stack := .ofList [.other 9, .sym 77, .code (.builtin (-3)), .code (.other 0 5)]
      calls := .ofList [-4, 0x7fffffffffffffff]
      loops := [⟨.other 7 0, .block (-1)⟩]
      words := ⟨[(42, .builtin 3)]⟩
      stackLimit := -2 }
  trace := some {}

theorem step_in_range_garbled :
    garbled.Calm ∧ Indexed.step garbled = some garbled.step ∧
      garbled.step.2 = some (.halt (some (.fault (.mismatch (.add .sym (.other 9)))))) ∧
      Indexed.step { garbled with machine := { garbled.machine with pc := 0 } } = none := by
  have hcalm : garbled.Calm := ⟨by simp [garbled], by simp [garbled]⟩
  refine ⟨hcalm, (step_in_range garbled hcalm (by decide) (by decide) ?_).1, by cbv, by cbv⟩
  intro code hcode
  cases hcode

end Session

end StackLang
