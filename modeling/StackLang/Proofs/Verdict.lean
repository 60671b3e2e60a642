import StackLang.Proofs.Compilation

/-!
# What is wrong with a source

Whether a source compiles, and which fault it is refused for, can be told from its tokens and the
positions of its open braces alone. Neither the names that are known nor the code in front of it
make a difference.

* `Token.check`: what one token does to the open braces, or its fault.
* `verdict`: the fault of a source, if it has one.
* `Draft.compile_verdict`: compiling a source ends as its verdict says.
-/

namespace StackLang

/-- The positions of the open braces after a token, innermost first, or the fault of the token. -/
def Token.check (opens : List Position) (t : Token) : Except ParseError (List Position) :=
  match t.kind with
  | .number =>
    match Decimal.int64? t.text with
    | some _ => .ok opens
    | none => .error ⟨t.position, .invalidNumber t.text⟩
  | .word =>
    if t.text = lit "\x7b" then .ok (t.position :: opens)
    else if t.text = lit "\x7d" then
      match opens with
      | [] => .error ⟨t.position, .unmatchedClose⟩
      | _ :: opens => .ok opens
    else .ok opens
  | .other _ => .error ⟨t.position, .unexpectedToken t.kind⟩
  | _ => .ok opens

/-- A fault at the end of a source: a string or a brace is still open. -/
def Tokens.endFault? (ts : Tokens) (opens : List Position) : Option ParseError :=
  match ts.unclosed, opens with
  | some p, _ => some ⟨p, .unterminatedString⟩
  | none, p :: _ => some ⟨p, .unclosedBlock⟩
  | none, [] => none

/-- The fault of a sequence of tokens: that of the first token that has one, or else the one at the
end. -/
def Tokens.fault? (ts : Tokens) : Option ParseError :=
  match ts.list.foldlM Token.check [] with
  | .error e => some e
  | .ok opens => ts.endFault? opens

/-- The fault of a source, if it has one. -/
def verdict (src : Bytes) : Option ParseError := (tokenize src).fault?

namespace Draft

/-- The positions of the open braces, innermost first. -/
def positions (d : Draft) : List Position := d.braces.map OpenBrace.position

theorem closeBlock_check (d : Draft) (p : Position) :
    (d.positions = [] ∧ d.closeBlock p = (d, some ⟨p, .unmatchedClose⟩)) ∨
      ∃ q d', d.positions = q :: d'.positions ∧ d.closeBlock p = (d', none) := by
  unfold closeBlock positions
  cases hbraces : d.braces with
  | nil => exact Or.inl ⟨rfl, rfl⟩
  | cons brace braces => exact Or.inr ⟨brace.position, _, rfl, rfl⟩

theorem word_check (d : Draft) (p : Position) (s : Bytes) :
    (∃ d', d.word p s = (d', none) ∧ Token.check d.positions ⟨.word, s, p⟩ = .ok d'.positions) ∨
      ∃ e, d.word p s = (d, some e) ∧ Token.check d.positions ⟨.word, s, p⟩ = .error e := by
  simp only [word, Token.check]
  by_cases hopen : s = lit "\x7b"
  · rw [if_pos hopen, if_pos hopen]
    exact Or.inl ⟨_, rfl, rfl⟩
  rw [if_neg hopen, if_neg hopen]
  by_cases hclose : s = lit "\x7d"
  · rw [if_pos hclose, if_pos hclose]
    rcases d.closeBlock_check p with ⟨hnil, heq⟩ | ⟨q, d', hcons, heq⟩
    · exact Or.inr ⟨_, heq, by rw [hnil]⟩
    · exact Or.inl ⟨d', heq, by rw [hcons]⟩
  rw [if_neg hclose, if_neg hclose]
  refine Or.inl ?_
  by_cases hloop : s = lit "while"
  · rw [if_pos hloop]
    exact ⟨_, rfl, rfl⟩
  · rw [if_neg hloop]
    cases reserved.lookup s with
    | some ops => exact ⟨_, rfl, rfl⟩
    | none => exact ⟨_, rfl, rfl⟩

/-- A draft takes a token exactly if the token has no fault, and has its open braces afterwards. -/
theorem token_check (d : Draft) (t : Token) :
    (∃ d', d.token t = (d', none) ∧ t.check d.positions = .ok d'.positions) ∨
      ∃ e, d.token t = (d, some e) ∧ t.check d.positions = .error e := by
  obtain ⟨kind, text, p⟩ := t
  cases kind with
  | number =>
    simp only [token, Token.check]
    cases Decimal.int64? text with
    | some n => exact Or.inl ⟨_, rfl, rfl⟩
    | none => exact Or.inr ⟨_, rfl, rfl⟩
  | string => exact Or.inl ⟨_, rfl, rfl⟩
  | symbol => exact Or.inl ⟨_, rfl, rfl⟩
  | word => exact d.word_check p text
  | other tag => exact Or.inr ⟨_, rfl, rfl⟩

theorem tokens_check (d : Draft) (ts : List Token) :
    (∃ d', d.tokens ts = (d', none) ∧ ts.foldlM Token.check d.positions = .ok d'.positions) ∨
      ∃ d' e, d.tokens ts = (d', some e) ∧ ts.foldlM Token.check d.positions = .error e := by
  induction ts generalizing d with
  | nil => exact Or.inl ⟨d, rfl, rfl⟩
  | cons t ts ih =>
    rw [tokens, List.foldlM_cons]
    rcases d.token_check t with ⟨d', heq, hcheck⟩ | ⟨e, heq, hcheck⟩
    · rw [heq, hcheck]
      exact ih d'
    · rw [heq, hcheck]
      exact Or.inr ⟨d, e, rfl, rfl⟩

theorem endError?_eq (d : Draft) (ts : Tokens) : d.endError? ts = ts.endFault? d.positions := by
  unfold endError? Tokens.endFault? positions
  cases ts.unclosed with
  | some p => rfl
  | none => cases d.braces <;> rfl

/-- Compiling a source ends as its verdict says. -/
theorem compile_verdict (d : Draft) (src : Bytes) :
    (∃ program, (d.compile src).2 = .ok program ∧ verdict src = none) ∨
      ∃ e, (d.compile src).2 = .error e ∧ verdict src = some e := by
  have hcheck := tokens_check { d with current := #[], braces := [], layouts := [] }
    (tokenize src).list
  have hstart : ({ d with current := #[], braces := [], layouts := [] } : Draft).positions = [] :=
    rfl
  rw [hstart] at hcheck
  unfold compile verdict Tokens.fault?
  simp only
  rcases hcheck with ⟨d', htokens, hcheck⟩ | ⟨d', e, htokens, hcheck⟩
  · simp only [htokens, hcheck, endError?_eq]
    cases (tokenize src).endFault? d'.positions with
    | none => exact Or.inl ⟨_, rfl, rfl⟩
    | some e => exact Or.inr ⟨e, rfl, rfl⟩
  · simp only [htokens, hcheck]
    exact Or.inr ⟨e, rfl, rfl⟩

end Draft

/-- A source compiles exactly if nothing is wrong with it, whatever names are known. -/
theorem compile_eq_ok_iff {r : Registry} {src : Bytes} :
    (∃ program, (compile r src).2 = .ok program) ↔ verdict src = none := by
  rcases Draft.compile_verdict { symbols := r } src with ⟨p, hok, hverdict⟩ | ⟨e, herror, hverdict⟩
  · exact ⟨fun _ => hverdict, fun _ => ⟨p, hok⟩⟩
  · constructor
    · rintro ⟨p, hok⟩
      cases herror.symm.trans hok
    · intro hnone
      cases hverdict.symm.trans hnone

theorem compile_eq_error_iff {r : Registry} {src : Bytes} {e : ParseError} :
    (compile r src).2 = .error e ↔ verdict src = some e := by
  rcases Draft.compile_verdict { symbols := r } src with
    ⟨p, hok, hverdict⟩ | ⟨e', herror, hverdict⟩
  · constructor
    · intro herror
      cases hok.symm.trans herror
    · intro hsome
      cases hverdict.symm.trans hsome
  · constructor
    · intro h
      cases herror.symm.trans h
      exact hverdict
    · intro hsome
      cases hverdict.symm.trans hsome
      exact herror

end StackLang
