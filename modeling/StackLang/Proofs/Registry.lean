import StackLang.Symbol

/-!
# Registries grow

Interning only ever adds names. A handle keeps its name for good, and a registry that was filled by
interning has no name twice.

* `KeptBy`: what one registry knows, a later one still knows (`keptBy_intern`).
* `name?_intern`: the handle that interning gives out has the name that was interned.
* `Distinct`: equal names have equal handles (`Distinct.intern`, `distinct_of`).
-/

namespace StackLang.Registry

/-- Every handle of `r` has the same name in `r'`. -/
def KeptBy (r r' : Registry) : Prop := ∀ ⦃h n⦄, r.name? h = some n → r'.name? h = some n

theorem KeptBy.refl (r : Registry) : r.KeptBy r := fun _ _ h => h

theorem KeptBy.trans {r₁ r₂ r₃ : Registry} (h₁ : r₁.KeptBy r₂) (h₂ : r₂.KeptBy r₃) :
    r₁.KeptBy r₃ := fun _ _ h => h₂ (h₁ h)

/-- No name has two handles. -/
def Distinct (r : Registry) : Prop :=
  ∀ ⦃h h' n⦄, r.name? h = some n → r.name? h' = some n → h = h'

theorem name?_eq_some {r : Registry} {h : Handle} {n : Name} :
    r.name? h = some n ↔ ∃ i, h = i + 1 ∧ r.names[i]? = some n := by
  cases h with
  | zero => simp [name?]
  | succ i => simp [name?]

/-! ## Interning -/

/-- A name that is new gets the next handle; any other keeps the one it has. -/
theorem intern_cases (r : Registry) (n : Name) :
    (r.intern n = (⟨r.names.push n⟩, r.size + 1) ∧ ∀ h, r.name? h ≠ some n) ∨
      ∃ h, r.intern n = (r, h) ∧ r.name? h = some n := by
  unfold intern
  split
  · rename_i hfind
    refine Or.inl ⟨rfl, ?_⟩
    intro h hname
    obtain ⟨i, rfl, hi⟩ := name?_eq_some.1 hname
    have hlt : i < r.size := (Array.getElem?_eq_some_iff.1 hi).1
    exact findUpTo_eq_zero.1 hfind i hlt hi
  · rename_i h hfind
    refine Or.inr ⟨h + 1, rfl, ?_⟩
    have hfound : r.findUpTo n r.size = h + 1 := hfind
    rw [← hfound]
    exact name?_findUpTo (by rw [hfound]; exact Nat.succ_ne_zero h)

theorem name?_push {r : Registry} {n m : Name} {h : Handle} :
    (⟨r.names.push n⟩ : Registry).name? h = some m ↔
      r.name? h = some m ∨ h = r.size + 1 ∧ m = n := by
  simp only [name?_eq_some, Array.getElem?_push]
  constructor
  · rintro ⟨i, rfl, hi⟩
    split at hi
    · rename_i hsize
      cases hi
      exact Or.inr ⟨by rw [hsize]; rfl, rfl⟩
    · exact Or.inl ⟨i, rfl, hi⟩
  · rintro (⟨i, rfl, hi⟩ | ⟨rfl, rfl⟩)
    · have hlt : i < r.names.size := (Array.getElem?_eq_some_iff.1 hi).1
      exact ⟨i, rfl, by rwa [if_neg (Nat.ne_of_lt hlt)]⟩
    · exact ⟨r.size, rfl, if_pos rfl⟩

theorem keptBy_intern (r : Registry) (n : Name) : r.KeptBy (r.intern n).1 := by
  intro h m hname
  rcases intern_cases r n with ⟨heq, -⟩ | ⟨h', heq, -⟩
  · rw [heq]
    exact name?_push.2 (Or.inl hname)
  · rwa [heq]

theorem name?_intern (r : Registry) (n : Name) :
    (r.intern n).1.name? (r.intern n).2 = some n := by
  rcases intern_cases r n with ⟨heq, -⟩ | ⟨h, heq, hname⟩
  · rw [heq]
    exact name?_push.2 (Or.inr ⟨rfl, rfl⟩)
  · rwa [heq]

theorem Distinct.intern {r : Registry} (hr : r.Distinct) (n : Name) : (r.intern n).1.Distinct := by
  rcases intern_cases r n with ⟨heq, hnew⟩ | ⟨h, heq, -⟩
  · rw [heq]
    intro h h' m hm hm'
    rcases name?_push.1 hm with hold | ⟨rfl, rfl⟩
    · rcases name?_push.1 hm' with hold' | ⟨rfl, rfl⟩
      · exact hr hold hold'
      · exact absurd hold (hnew h)
    · rcases name?_push.1 hm' with hold' | ⟨rfl, -⟩
      · exact absurd hold' (hnew h')
      · rfl
  · rwa [heq]

/-! ## Registries filled by interning -/

theorem distinct_empty : ({} : Registry).Distinct := by
  intro h h' n hname
  obtain ⟨i, -, hi⟩ := name?_eq_some.1 hname
  simp at hi

/-- The registry that knows these names and no others. -/
def of (names : List Name) : Registry := names.foldl (fun r n => (r.intern n).1) {}

theorem distinct_of (names : List Name) : (of names).Distinct := by
  suffices ∀ r : Registry, r.Distinct →
      (names.foldl (fun r n => (r.intern n).1) r).Distinct from this {} distinct_empty
  induction names with
  | nil => exact fun _ hr => hr
  | cons n names ih => exact fun r hr => ih _ (hr.intern n)

/-! ## Texts -/

theorem packed_of_name? {r : Registry} {h : Handle} {n : Name} (hname : r.name? h = some n) :
    r.packed h = n.text := by
  rw [packed, hname]

theorem text_of_word {r : Registry} {h : Handle} {s : Bytes}
    (hname : r.name? h = some (.ofWord s)) : r.text h = s := by
  rw [text, packed_of_name? hname]
  exact Bytes.unpack_pack s

theorem text_of_string {r : Registry} {h : Handle} {s : Bytes}
    (hname : r.name? h = some (.ofString s)) : r.text h = s := by
  rw [text, packed_of_name? hname]
  exact Bytes.unpack_pack s

theorem ofWord_inj {s t : Bytes} : Name.ofWord s = Name.ofWord t ↔ s = t := by
  simp [Name.ofWord, Name.of_inj]

theorem ofString_inj {s t : Bytes} : Name.ofString s = Name.ofString t ↔ s = t := by
  simp [Name.ofString, Name.of_inj]

end StackLang.Registry
