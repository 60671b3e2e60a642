import StackLang.Text.Decimal
import StackLang.Text.Template.Style

/-!
# Message templates

A template is a text with directives for its arguments. A directive is a percent sign, flags, a
width, a precision and a verb; `%v` shows the next argument in its plain form, and `%%` is a percent
sign. Width and precision can be taken from the arguments by a star, and a number in brackets says
which argument comes next. Faults of a template show in the text it gives: an argument that is
missing, left over or of the wrong type, and a directive that is none.
-/

namespace StackLang.Template

/-! ## Arguments -/

inductive Argument where
  | text (s : Bytes)
  | int (n : Int)
  | bool (b : Bool)
deriving DecidableEq, Repr

namespace Argument

def typeName : Argument → Bytes
  | text _ => lit "string"
  | int _ => lit "int"
  | bool _ => lit "bool"

/-- The form that suits an argument of any type. -/
def plain (st : Style) : Argument → Bytes
  | text s => if st.literal then st.quoted s else st.text s
  | int n => st.integer 10 false false n
  | bool true => st.pad (lit "true")
  | bool false => st.pad (lit "false")

/-- The form that a verb asks for, if it is one for this type. -/
def form? (st : Style) (verb : Char) (a : Argument) : Option Bytes :=
  match verb, a with
  | 'v', a => some (a.plain st)
  | 'T', a => some (st.text a.typeName)
  | 't', bool _ => some (a.plain st)
  | 'd', int n => some (st.integer 10 false false n)
  | 'b', int n => some (st.integer 2 false false n)
  | 'o', int n => some (st.integer 8 false false n)
  | 'O', int n => some (st.integer 8 false true n)
  | 'x', int n => some (st.integer 16 false false n)
  | 'X', int n => some (st.integer 16 true false n)
  | 'c', int n => some (st.pad (Utf8.encode (Style.character n)))
  | 'q', int n => some (st.pad (Text.escapedCharacter st.plain (Style.character n)))
  | 'U', int n => some (st.codePoint n)
  | 's', text s => some (st.text s)
  | 'q', text s => some (st.quoted s)
  | 'x', text s => some (st.hexBytes false s)
  | 'X', text s => some (st.hexBytes true s)
  | _, _ => none

/-- The argument with its type, as faults show it. -/
def typed (st : Style) (a : Argument) : Bytes := a.typeName ++ lit "=" ++ a.plain st

end Argument

/-- A fault of a directive, by its verb. -/
def complaint (verb : Char) (what : Bytes) : Bytes :=
  lit "%!" ++ Utf8.encode verb ++ lit "(" ++ what ++ lit ")"

def formatVerb (st : Style) (verb : Char) (a : Argument) : Bytes :=
  match a.form? st verb with
  | some s => s
  | none => complaint verb (a.typed st)

/-- The arguments that no directive has taken. -/
def extra : List Argument → Bytes
  | [] => []
  | args => lit "%!(EXTRA " ++ Bytes.join (lit ", ") (args.map (Argument.typed {})) ++ lit ")"

/-! ## Directives -/

/-- A directive as far as it is read. -/
structure Directive where
  /-- The template from here on. -/
  rest : Bytes
  /-- How many arguments come before the next one. -/
  next : Nat
  style : Style := {}
  /-- Every number in brackets names an argument and stands where it can. -/
  sound : Bool := true
  /-- A number in brackets came last. -/
  numbered : Bool := false
  /-- There was a number in brackets in the template so far. -/
  reordered : Bool := false
  /-- What is wrong with width and precision. -/
  faults : Bytes := []

/-- The greatest width or precision, up to a last digit. -/
def sizeLimit : Nat := 1000000

/-- A run of digits. One that is far too long takes the whole template with it. -/
def number : (n : Option Nat) → Bytes → Option Nat × Bytes
  | n, [] => (n, [])
  | n, b :: r =>
    if Byte.isDigit b then
      if sizeLimit < n.getD 0 then (none, [])
      else number (some (n.getD 0 * 10 + Decimal.digitValue b)) r
    else (n, b :: r)

/-- A number up to a closing bracket. Without that bracket nothing is taken. -/
def bracketed (s : Bytes) : Option Nat × Bytes :=
  if s.length < 2 then (none, s)
  else
    match s.dropWhile (· ≠ 0x5d) with
    | [] => (none, s)
    | _ :: rest =>
      match number none (s.takeWhile (· ≠ 0x5d)) with
      | (some n, []) => (some n, rest)
      | _ => (none, rest)

namespace Directive

def takeFlags (st : Style) : Bytes → Style × Bytes
  | [] => (st, [])
  | b :: r =>
    if b = 0x23 then takeFlags { st with alternate := true } r
    else if b = 0x30 then takeFlags { st with zeros := true } r
    else if b = 0x2b then takeFlags { st with plus := true } r
    else if b = 0x2d then takeFlags { st with left := true } r
    else if b = 0x20 then takeFlags { st with blank := true } r
    else (st, b :: r)

def takeNumber (count : Nat) (d : Directive) : Directive :=
  match d.rest with
  | 0x5b :: r =>
    match bracketed r with
    | (none, rest) => { d with rest, reordered := true, numbered := false, sound := false }
    | (some n, rest) =>
      if 1 ≤ n ∧ n ≤ count then { d with rest, reordered := true, numbered := true, next := n - 1 }
      else { d with rest, reordered := true, numbered := true, sound := false }
  | _ => { d with numbered := false }

/-- The next argument as a width or precision. -/
def takeStar (args : List Argument) (d : Directive) : Option Int × Directive :=
  match args[d.next]? with
  | none => (none, { d with numbered := false })
  | some a =>
    let size :=
      match a with
      | .int n => if n.natAbs ≤ sizeLimit then some n else none
      | _ => none
    (size, { d with next := d.next + 1, numbered := false })

def blame (d : Directive) (what : String) : Directive := { d with faults := d.faults ++ lit what }

/-- Take a width. A negative one fills up on the right. -/
def takeWidth (args : List Argument) (d : Directive) : Directive :=
  match d.rest with
  | 0x2a :: rest =>
    match takeStar args { d with rest } with
    | (none, d) => d.blame "%!(BADWIDTH)"
    | (some n, d) =>
      { d with style := { d.style with width := some n.natAbs, left := d.style.left || n < 0 } }
  | _ =>
    let (n, rest) := number none d.rest
    { d with
      rest
      style := { d.style with width := n }
      sound := d.sound && !(d.numbered && n.isSome) }

/-- Take a precision behind a point. A point at the end of the template is a verb instead. -/
def takePrecision (args : List Argument) (d : Directive) : Directive :=
  match d.rest with
  | 0x2e :: b :: r =>
    let d := takeNumber args.length { d with rest := b :: r, sound := d.sound && !d.numbered }
    match d.rest with
    | 0x2a :: rest =>
      match takeStar args { d with rest } with
      | (some (.ofNat n), d) => { d with style := { d.style with precision := some n } }
      | (_, d) => d.blame "%!(BADPREC)"
    | _ =>
      let (n, rest) := number none d.rest
      { d with rest, style := { d.style with precision := some (n.getD 0) } }
  | _ => d

/-- Read a directive up to its verb. -/
def read (args : List Argument) (next : Nat) (reordered : Bool) (s : Bytes) : Directive :=
  let (style, rest) := takeFlags {} s
  let d := takeNumber args.length { rest, next, style, reordered }
  let d := takePrecision args (takeWidth args d)
  if d.numbered then d else takeNumber args.length d

/-- The style with the flags that plain forms read in their own way. -/
def styleFor (d : Directive) (verb : Char) : Style :=
  if verb = 'v' ∨ verb = 'w' then
    { d.style with literal := d.style.alternate, alternate := false, plus := false }
  else d.style

end Directive

/-! ## Lengths -/

theorem number_length (n : Option Nat) (s : Bytes) : (number n s).2.length ≤ s.length := by
  fun_induction number n s with
  | case1 => simp
  | case2 => simp
  | case3 _ _ _ _ _ ih => simp only [List.length_cons]; omega
  | case4 => simp

theorem bracketed_length (s : Bytes) : (bracketed s).2.length ≤ s.length := by
  have hdrop : (s.dropWhile (· ≠ 0x5d)).length ≤ s.length :=
    (List.dropWhile_suffix _).length_le
  unfold bracketed
  split
  · exact Nat.le_refl _
  · split
    · exact Nat.le_refl _
    · rename_i hrest
      rw [hrest, List.length_cons] at hdrop
      split <;> (simp only; omega)

namespace Directive

theorem takeFlags_length (st : Style) (s : Bytes) : (takeFlags st s).2.length ≤ s.length := by
  fun_induction takeFlags st s <;> simp only [List.length_cons, List.length_nil] <;> omega

theorem takeNumber_length (count : Nat) (d : Directive) :
    (takeNumber count d).rest.length ≤ d.rest.length := by
  unfold takeNumber
  split
  · rename_i r hrest
    have hlength := bracketed_length r
    rw [hrest, List.length_cons]
    split
    · rename_i hread
      rw [hread] at hlength
      exact Nat.le_succ_of_le hlength
    · rename_i hread
      rw [hread] at hlength
      split <;> exact Nat.le_succ_of_le hlength
  · exact Nat.le_refl _

theorem takeStar_rest (args : List Argument) (d : Directive) :
    (takeStar args d).2.rest = d.rest := by
  unfold takeStar
  split <;> rfl

theorem takeWidth_length (args : List Argument) (d : Directive) :
    (takeWidth args d).rest.length ≤ d.rest.length := by
  unfold takeWidth
  split
  · rename_i rest hrest
    have hstar := takeStar_rest args { d with rest }
    rw [hrest, List.length_cons]
    split <;> rename_i hread <;> rw [hread] at hstar <;> simp only [blame] <;> rw [hstar] <;>
      exact Nat.le_succ _
  · exact number_length none d.rest

theorem takePrecision_length (args : List Argument) (d : Directive) :
    (takePrecision args d).rest.length ≤ d.rest.length := by
  unfold takePrecision
  split
  · rename_i b r hrest
    have hnumber :=
      takeNumber_length args.length { d with rest := b :: r, sound := d.sound && !d.numbered }
    rw [hrest, List.length_cons]
    simp only at hnumber ⊢
    generalize
      takeNumber args.length { d with rest := b :: r, sound := d.sound && !d.numbered } = d' at *
    split
    · rename_i rest' hrest'
      have hstar := takeStar_rest args { d' with rest := rest' }
      rw [hrest', List.length_cons] at hnumber
      split <;> rename_i hread <;> rw [hread] at hstar <;> simp only [blame] <;> rw [hstar] <;>
        simp only <;> omega
    · have := number_length none d'.rest
      simp only
      omega
  · exact Nat.le_refl _

theorem read_length (args : List Argument) (next : Nat) (reordered : Bool) (s : Bytes) :
    (read args next reordered s).rest.length ≤ s.length := by
  have hflags := takeFlags_length {} s
  unfold read
  simp only
  generalize takeFlags {} s = p at *
  have hnumber := takeNumber_length args.length { rest := p.2, next, style := p.1, reordered }
  generalize takeNumber args.length { rest := p.2, next, style := p.1, reordered } = d at *
  have hwidth := takeWidth_length args d
  generalize takeWidth args d = d at *
  have hprecision := takePrecision_length args d
  generalize takePrecision args d = d at *
  have hlast := takeNumber_length args.length d
  simp only at hnumber
  split <;> omega

end Directive

/-! ## Filling in -/

/-- The verb of a directive and the template behind it. -/
def verb? : Bytes → Option (Char × Bytes)
  | [] => none
  | b :: r =>
    match Utf8.first? (b :: r) with
    | some (c, rest) => some (c, rest)
    | none => some (Glyph.replacement, r)

theorem verb?_length {s rest : Bytes} {c : Char} (h : verb? s = some (c, rest)) :
    rest.length < s.length := by
  unfold verb? at h
  split at h
  · cases h
  · split at h
    · rename_i hfirst
      cases h
      exact Utf8.first?_length hfirst
    · cases h
      exact Nat.lt_succ_self _

/-- Read a directive, its verb and the template behind it. -/
def readVerb (args : List Argument) (next : Nat) (reordered : Bool) (s : Bytes) :
    Directive × Option (Char × Bytes) :=
  let d := Directive.read args next reordered s
  (d, verb? d.rest)

theorem readVerb_length {args : List Argument} {next : Nat} {reordered : Bool} {s rest : Bytes}
    {d : Directive} {c : Char} (h : readVerb args next reordered s = (d, some (c, rest))) :
    rest.length < s.length := by
  have hread := Directive.read_length args next reordered s
  have hverb : verb? (Directive.read args next reordered s).rest = some (c, rest) :=
    congrArg Prod.snd h
  exact Nat.lt_of_lt_of_le (verb?_length hverb) hread

/-- Fill in the rest of a template, with `next` arguments taken. -/
def fillFrom (args : List Argument) (next : Nat) (reordered : Bool) : Bytes → Bytes
  | [] => if reordered then [] else extra (args.drop next)
  | b :: r =>
    if b = 0x25 then
      match h : readVerb args next reordered r with
      | (d, none) =>
        d.faults ++ lit "%!(NOVERB)" ++ if d.reordered then [] else extra (args.drop d.next)
      | (d, some (verb, rest)) =>
        have := readVerb_length h
        d.faults ++
          if verb = '%' then lit "%" ++ fillFrom args d.next d.reordered rest
          else if !d.sound then
            complaint verb (lit "BADINDEX") ++ fillFrom args d.next d.reordered rest
          else
            match args[d.next]? with
            | none => complaint verb (lit "MISSING") ++ fillFrom args d.next d.reordered rest
            | some a =>
              formatVerb (d.styleFor verb) verb a ++ fillFrom args (d.next + 1) d.reordered rest
    else b :: fillFrom args next reordered r
termination_by s => s.length

/-- The text of a template. Without arguments a template stands for itself. -/
def fill (template : Bytes) (args : List Argument) : Bytes :=
  if args.isEmpty then template else fillFrom args 0 false template

end StackLang.Template
