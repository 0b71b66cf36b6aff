import NamedLambda.Symbol

/-!
# Finite sets of symbols

A set is kept as its strictly increasing list of members, so a set has one representation and
listing it needs no sorting. Membership is described for every operation.
-/

namespace NamedLambda

set_option autoImplicit false

structure NameSet where
  toList : List Symbol
  increasing : toList.Pairwise (· < ·)
  deriving DecidableEq

namespace NameSet

instance : Membership Symbol NameSet := ⟨fun s x => x ∈ s.toList⟩

instance (x : Symbol) (s : NameSet) : Decidable (x ∈ s) := inferInstanceAs (Decidable (x ∈ s.toList))

@[simp] theorem mem_toList {x : Symbol} {s : NameSet} : x ∈ s.toList ↔ x ∈ s := Iff.rfl

theorem mem_mk {x : Symbol} {l : List Symbol} {h : l.Pairwise (· < ·)} :
    x ∈ (⟨l, h⟩ : NameSet) ↔ x ∈ l := Iff.rfl

def size (s : NameSet) : Nat := s.toList.length

def empty : NameSet := ⟨[], .nil⟩

instance : EmptyCollection NameSet := ⟨empty⟩

@[simp] theorem not_mem_empty (x : Symbol) : ¬ x ∈ (∅ : NameSet) := List.not_mem_nil

def singleton (x : Symbol) : NameSet := ⟨[x], List.pairwise_singleton _ x⟩

@[simp] theorem mem_singleton {x y : Symbol} : y ∈ singleton x ↔ y = x := List.mem_singleton

def insertInto (x : Symbol) : List Symbol → List Symbol
  | [] => [x]
  | y :: ys => if x < y then x :: y :: ys else if y < x then y :: insertInto x ys else y :: ys

theorem mem_insertInto {x y : Symbol} {l : List Symbol} : y ∈ insertInto x l ↔ y = x ∨ y ∈ l := by
  induction l with
  | nil => simp [insertInto]
  | cons z l ih =>
    unfold insertInto
    split
    · simp
    · rename_i hxz
      split
      · simp only [List.mem_cons, ih]
        exact or_left_comm
      · rename_i hzx
        have hEq := Symbol.eq_of_not_lt hxz hzx
        simp [hEq]

theorem insertInto_increasing {x : Symbol} {l : List Symbol} (h : l.Pairwise (· < ·)) :
    (insertInto x l).Pairwise (· < ·) := by
  induction l with
  | nil => exact List.pairwise_singleton _ x
  | cons y l ih =>
    obtain ⟨hHead, hTail⟩ := List.pairwise_cons.mp h
    unfold insertInto
    split
    · rename_i hxy
      refine List.pairwise_cons.mpr ⟨fun z hz => ?_, h⟩
      rcases List.mem_cons.mp hz with rfl | hz
      · exact hxy
      · exact Symbol.lt_trans hxy (hHead z hz)
    · split
      · rename_i hyx
        refine List.pairwise_cons.mpr ⟨fun z hz => ?_, ih hTail⟩
        rcases mem_insertInto.mp hz with rfl | hz
        · exact hyx
        · exact hHead z hz
      · exact h

def insert (x : Symbol) (s : NameSet) : NameSet :=
  ⟨insertInto x s.toList, insertInto_increasing s.increasing⟩

@[simp] theorem mem_insert {x y : Symbol} {s : NameSet} : y ∈ s.insert x ↔ y = x ∨ y ∈ s :=
  mem_insertInto

def erase (s : NameSet) (x : Symbol) : NameSet :=
  ⟨s.toList.filter (· ≠ x), s.increasing.filter _⟩

@[simp] theorem mem_erase {x y : Symbol} {s : NameSet} : y ∈ s.erase x ↔ y ∈ s ∧ y ≠ x := by
  show y ∈ s.toList.filter (· ≠ x) ↔ _
  simp

def union (s t : NameSet) : NameSet := s.toList.foldr insert t

@[simp] theorem mem_union {x : Symbol} {s t : NameSet} : x ∈ s.union t ↔ x ∈ s ∨ x ∈ t := by
  have general : ∀ l : List Symbol, x ∈ l.foldr insert t ↔ x ∈ l ∨ x ∈ t := by
    intro l
    induction l with
    | nil => simp
    | cons y l ih => simp [ih, or_assoc]
  exact general s.toList

def ofList (l : List Symbol) : NameSet := l.foldr insert ∅

@[simp] theorem mem_ofList {x : Symbol} {l : List Symbol} : x ∈ ofList l ↔ x ∈ l := by
  unfold ofList
  induction l with
  | nil => simp
  | cons y l ih => simp [ih]

/-- A set is determined by its members. -/
theorem ext {s t : NameSet} (h : ∀ x, x ∈ s ↔ x ∈ t) : s = t := by
  obtain ⟨l, hl⟩ := s
  obtain ⟨m, hm⟩ := t
  simp only [mem_mk] at h
  have hEq : l = m := by
    induction l generalizing m with
    | nil =>
      cases m with
      | nil => rfl
      | cons y m => exact absurd ((h y).mpr List.mem_cons_self) List.not_mem_nil
    | cons x l ih =>
      cases m with
      | nil => exact absurd ((h x).mp List.mem_cons_self) List.not_mem_nil
      | cons y m =>
        obtain ⟨hxl, hTail⟩ := List.pairwise_cons.mp hl
        obtain ⟨hym, hTail'⟩ := List.pairwise_cons.mp hm
        have hxy : x = y := by
          rcases List.mem_cons.mp ((h x).mp List.mem_cons_self) with hx | hx
          · exact hx
          · rcases List.mem_cons.mp ((h y).mpr List.mem_cons_self) with hy | hy
            · exact hy.symm
            · exact absurd (Symbol.lt_trans (hym x hx) (hxl y hy)) (Symbol.lt_irrefl y)
        subst hxy
        congr 1
        refine ih hTail m hTail' fun z => ⟨fun hz => ?_, fun hz => ?_⟩
        · rcases List.mem_cons.mp ((h z).mp (List.mem_cons_of_mem x hz)) with rfl | hz'
          · exact absurd (hxl z hz) (Symbol.lt_irrefl z)
          · exact hz'
        · rcases List.mem_cons.mp ((h z).mpr (List.mem_cons_of_mem x hz)) with rfl | hz'
          · exact absurd (hym z hz) (Symbol.lt_irrefl z)
          · exact hz'
  subst hEq
  rfl

end NameSet

end NamedLambda
