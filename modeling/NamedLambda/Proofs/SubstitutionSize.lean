import NamedLambda.Proofs.Environment

/-!
# How deep substitution recurses and how large its result is

To replace a variable below a binder that captures, substitution first renames the binder, by another
substitution, and then goes on in what this gives, which is no part of the term it started from.
With a bound on how deep calls may be nested the recursion is a recursion on this bound, and
the size of the term is bound enough: a renaming keeps the size, so every call is made for a
smaller term than the call that makes it.

Each free occurrence is a node that gives way to the replacement, and nothing else changes the number
of nodes. Binders may be renamed on the way, so the nodes are counted in the nameless form.
-/

namespace NamedLambda

set_option autoImplicit false

namespace Nameless

def size : Nameless → Nat
  | bound _ => 1
  | free _ => 1
  | abs body => body.size + 1
  | app fn arg => fn.size + arg.size + 1

theorem size_rename (t : Nameless) (ρ : Nat → Nat) : (t.rename ρ).size = t.size := by
  induction t generalizing ρ with
  | bound i => rfl
  | free x => rfl
  | abs body ih => rw [rename, size, size, ih]
  | app fn arg ihFn ihArg => rw [rename, size, size, ihFn, ihArg]

theorem size_shift (t : Nameless) : t.shift.size = t.size := size_rename t Nat.succ

end Nameless

theorem size_enter {env : Symbol → Nameless} (h : ∀ y, (env y).size = 1) (x y : Symbol) :
    (enter env x y).size = 1 := by
  by_cases hEq : y = x
  · rw [hEq, enter_self]
    rfl
  · rw [enter_of_ne hEq, Nameless.size_shift, h]

/-- Below its own binder it does not matter what a name stood for. -/
theorem enter_update_self (env : Symbol → Nameless) (x : Symbol) (e : Nameless) :
    enter (Function.update env x e) x = enter env x := by
  funext y
  by_cases hEq : y = x
  · rw [hEq, enter_self, enter_self]
  · rw [enter_of_ne hEq, enter_of_ne hEq, Function.update_of_ne hEq]

namespace Term

/-- The number of free occurrences. -/
def occurrences (x : Symbol) : Term → Nat
  | var y => if y = x then 1 else 0
  | abs y body => if y = x then 0 else body.occurrences x
  | app fn arg => fn.occurrences x + arg.occurrences x

theorem size_namelessIn {env : Symbol → Nameless} (h : ∀ y, (env y).size = 1) (t : Term) :
    (t.namelessIn env).size = t.size := by
  induction t generalizing env with
  | var x => exact h x
  | abs x body ih => rw [namelessIn, Nameless.size, size, ih (size_enter h x)]
  | app fn arg ihFn ihArg => rw [namelessIn, Nameless.size, size, ihFn h, ihArg h]

/-- What `x` stands for is counted once for each free occurrence of `x`. -/
theorem size_namelessIn_update (t : Term) (env : Symbol → Nameless) (x : Symbol) (e : Nameless) :
    (t.namelessIn (Function.update env x e)).size + t.occurrences x * (env x).size =
      (t.namelessIn env).size + t.occurrences x * e.size := by
  induction t generalizing env e with
  | var y =>
    rw [namelessIn, namelessIn, occurrences]
    by_cases hEq : y = x
    · rw [if_pos hEq, hEq, Function.update_self]
      omega
    · rw [if_neg hEq, Function.update_of_ne hEq, Nat.zero_mul, Nat.zero_mul]
  | abs y body ih =>
    rw [namelessIn, namelessIn, Nameless.size, Nameless.size, occurrences]
    by_cases hEq : y = x
    · rw [if_pos hEq, hEq, enter_update_self, Nat.zero_mul, Nat.zero_mul]
    · have hBody := ih (enter env y) e.shift
      rw [enter_of_ne (Ne.symm hEq), Nameless.size_shift, Nameless.size_shift] at hBody
      rw [if_neg hEq, enter_update hEq]
      omega
  | app fn arg ihFn ihArg =>
    have hFn := ihFn env e
    have hArg := ihArg env e
    rw [namelessIn, namelessIn, Nameless.size, Nameless.size, occurrences, Nat.add_mul, Nat.add_mul]
    omega

theorem Substituted.size_add {t u r : Term} {x : Symbol} (h : Substituted t x r u) :
    u.size + t.occurrences x = t.size + t.occurrences x * r.size := by
  have hFree : ∀ y, (Nameless.free y).size = 1 := fun _ => rfl
  have hCount := size_namelessIn_update t Nameless.free x (r.namelessIn Nameless.free)
  rwa [← h, size_namelessIn hFree, size_namelessIn hFree, size_namelessIn hFree, hFree, Nat.mul_one] at hCount

/-- The recursion of substitution, which gives up on calls nested deeper than `depth`. -/
def substWithin : Nat → Term → Symbol → Term → Option Term
  | 0, _, _, _ => none
  | _ + 1, var y, x, r => some (if y = x then r else var y)
  | depth + 1, app fn arg, x, r => do
    let fn' ← substWithin depth fn x r
    let arg' ← substWithin depth arg x r
    return app fn' arg'
  | depth + 1, abs y body, x, r =>
    if y = x ∨ body.hasFree x = false then some (abs y body)
    else if r.hasFree y = false then do
      let body' ← substWithin depth body x r
      return abs y body'
    else do
      let z := newBinder y body x r
      let renamed ← substWithin depth body y (var z)
      let body' ← substWithin depth renamed x r
      return abs z body'

theorem substWithin_of_size_le {depth : Nat} {t : Term} (h : t.size ≤ depth) (x : Symbol) (r : Term) :
    substWithin depth t x r = some (t.subst x r) := by
  induction depth generalizing t x r with
  | zero => exact absurd h (Nat.not_le_of_lt t.size_pos)
  | succ depth ih =>
    cases t with
    | var y => rw [substWithin, subst_var]
    | app fn arg =>
      rw [size] at h
      have hFn : fn.size ≤ depth := by omega
      have hArg : arg.size ≤ depth := by omega
      rw [substWithin, subst_app, ih hFn, ih hArg]
      rfl
    | abs y body =>
      have hBody : body.size ≤ depth := Nat.le_of_succ_le_succ h
      rw [substWithin, subst_abs]
      split
      case isTrue => rfl
      case isFalse =>
        split
        case isTrue =>
          rw [ih hBody]
          rfl
        case isFalse =>
          -- The second call is made for the result of the first, which is as large as the body.
          have hRenamed : (body.subst y (var (newBinder y body x r))).size ≤ depth := by
            rw [size_subst_var]
            exact hBody
          simp only [ih hBody, ih hRenamed, Option.bind_eq_bind, Option.bind_some]
          rfl

theorem subst_ends_with_exact_size (t : Term) (x : Symbol) (r : Term) :
    (∀ depth, t.size ≤ depth → substWithin depth t x r = some (t.subst x r)) ∧
      (t.subst x r).size + t.occurrences x = t.size + t.occurrences x * r.size ∧
      ∀ y, (t.subst x (var y)).size = t.size := by
  refine ⟨fun depth hDepth => ?_, ?_, fun y => ?_⟩
  · exact substWithin_of_size_le hDepth x r
  · exact (substituted_subst t x r).size_add
  · exact size_subst_var t x y

theorem subst_ends_with_exact_size_renamedTwice :
    let x : Symbol := .literal "x"
    let y : Symbol := .literal "y"
    let y₁ : Symbol := .literal "y1"
    let y₂ : Symbol := .literal "y2"
    let y₃ : Symbol := .literal "y3"
    let t := abs y (abs y₁ (app (app (var x) (var y)) (var y₁)))
    let r := app (var y) (var y₁)
    t.subst x r = abs y₂ (abs y₃ (app (app r (var y₂)) (var y₃))) ∧
      t.size ≤ 7 ∧ substWithin 7 t x r = some (t.subst x r) ∧ substWithin 2 t x r = none ∧
      t.occurrences x = 1 ∧ (t.subst x r).size + 1 = 7 + 1 * r.size := by
  intro x y y₁ y₂ y₃ t r
  have hSize : t.size ≤ 7 := by decide
  obtain ⟨hEnds, hLaw, _⟩ := subst_ends_with_exact_size t x r
  exact ⟨by decide +kernel, hSize, hEnds 7 hSize, by decide +kernel, rfl, hLaw⟩

end Term

end NamedLambda
