import Mathlib.Algebra.Group.Action.Basic
import Mathlib.Algebra.Module.Basic
import Mathlib.Tactic.Ring

set_option linter.unusedSectionVars false

namespace PAMI.Math

open List Nat

/-- One pass over a layout: the items it visits, in order and relative to where the pass
starts, and the displacement by which it moves the origin of what follows. -/
@[ext] structure Layout (α D : Type*) where
  items : List α
  advance : D
  deriving DecidableEq

namespace Layout

variable {α β D : Type*}

section Monoid

variable [AddMonoid D] [AddAction D α] [AddAction D β]

/-- Passes compose: the second one starts where the first one left the origin. -/
instance : Mul (Layout α D) := ⟨fun x y => ⟨x.items ++ y.items.map (x.advance +ᵥ ·), x.advance + y.advance⟩⟩

instance : One (Layout α D) := ⟨⟨[], 0⟩⟩

@[simp] theorem mul_items (x y : Layout α D) :
    (x*y).items = x.items ++ y.items.map (x.advance +ᵥ ·) := rfl

@[simp] theorem mul_advance (x y : Layout α D) :
    (x*y).advance=x.advance+y.advance := rfl

@[simp] theorem one_items : (1 : Layout α D).items = [] := rfl

@[simp] theorem one_advance : (1 : Layout α D).advance=0 := rfl

instance : Monoid (Layout α D) where
  mul_assoc x y z := by
    apply Layout.ext
    · simp [append_assoc, add_vadd]
    · simp [add_assoc]
  one_mul x := by apply Layout.ext <;> simp
  mul_one x := by apply Layout.ext <;> simp

/-- A pass that visits nothing and only moves the origin. -/
def shift (s : D) : Layout α D := ⟨[], s⟩

/-- The same items, leaving the origin at `s` instead. -/
def withAdvance (x : Layout α D) (s : D) : Layout α D := ⟨x.items, s⟩

/-- `n` copies of the items of `x`, one every `s`. -/
def every (n : ℕ) (s : D) (x : Layout α D) : Layout α D :=
  ⟨(List.range n).flatMap fun i => x.items.map (i • s +ᵥ ·), n • s⟩

@[simp] theorem shift_items (s : D) : (shift s : Layout α D).items = [] := rfl

@[simp] theorem shift_advance (s : D) : (shift s : Layout α D).advance=s := rfl

section

variable (x : Layout α D)
include x

@[simp] theorem withAdvance_items (s : D) : (x.withAdvance s).items=x.items := rfl

@[simp] theorem withAdvance_advance (s : D) : (x.withAdvance s).advance=s := rfl

@[simp] theorem withAdvance_self : x.withAdvance x.advance = x := rfl

omit x in
@[simp] theorem shift_zero : (shift 0 : Layout α D)=1 := rfl

omit x in
theorem shift_mul_shift (s t : D) : (shift s*shift t : Layout α D) = shift (s+t) := rfl

theorem mul_shift (s : D) : x*shift s = x.withAdvance (x.advance+s) := by
  apply Layout.ext <;> simp

@[simp] theorem pow_advance (n : ℕ) : (x^n).advance = n • x.advance := by
  induction n with
  | zero => simp
  | succ n ih => rw [pow_succ,mul_advance,ih,succ_nsmul]

@[simp] theorem pow_items_length (n : ℕ) : (x^n).items.length=n*x.items.length := by
  induction n with
  | zero => simp
  | succ n ih => rw [pow_succ,mul_items,length_append,length_map,ih]; ring

omit x in
@[simp] theorem mul_items_length (x y : Layout α D) :
    (x*y).items.length=x.items.length+y.items.length := by
  simp

omit x in
theorem every_eq_pow (n : ℕ) (s : D) (x : Layout α D) : every n s x = x.withAdvance s^n := by
  induction n with
  | zero => apply Layout.ext <;> simp [every]
  | succ n ih =>
    have hi := congrArg Layout.items ih
    rw [pow_succ]
    apply Layout.ext
    · rw [mul_items,← hi,pow_advance]
      simp [every,range_succ]
    · simp [every,succ_nsmul]

theorem eq_shift (h : x.items = []) : x = shift x.advance := Layout.ext h rfl

theorem pow_of_items_nil (h : x.items = []) (n : ℕ) : x^n = shift (n • x.advance) := by
  have hn : (x^n).items = [] := by rw [← length_eq_zero_iff,pow_items_length,h,length_nil,mul_zero]
  rw [eq_shift (x^n) hn,pow_advance]

end

/-- Refines every item into the list `f` gives for it. -/
def expand (f : α → List β) (x : Layout α D) : Layout β D := ⟨x.items.flatMap f, x.advance⟩

section

variable (f : α → List β)
include f

theorem expand_mul (hf : ∀ (d : D) a, f (d +ᵥ a) = (f a).map (d +ᵥ ·)) (x y : Layout α D) :
    expand f (x*y) = expand f x*expand f y := by
  apply Layout.ext
  · simp only [expand,mul_items,flatMap_append,flatMap_map,map_flatMap,hf]
  · rfl

theorem expand_pow (hf : ∀ (d : D) a, f (d +ᵥ a) = (f a).map (d +ᵥ ·)) (x : Layout α D) (n : ℕ) :
    expand f (x^n) = expand f x^n := by
  induction n with
  | zero => rfl
  | succ n ih => rw [pow_succ,pow_succ,expand_mul f hf,ih]

end

end Monoid

section Block

variable [AddMonoidWithOne D]

/-- `n` consecutive cells, leaving the origin at `s`. -/
def block (n : ℕ) (s : D) : Layout D D := ⟨(List.range n).map (fun j : ℕ => (j : D)), s⟩

@[simp] theorem block_items_length (n : ℕ) (s : D) : (block n s).items.length=n := by
  simp [block]

@[simp] theorem block_advance (n : ℕ) (s : D) : (block n s).advance=s := rfl

@[simp] theorem block_withAdvance (n : ℕ) (s t : D) : (block n s).withAdvance t = block n t := rfl

theorem block_mul_shift (n : ℕ) (s t : D) : block n s*shift t = block n (s+t) := by
  rw [mul_shift,block_advance,block_withAdvance]

theorem block_mul_block (m n : ℕ) (s : D) :
    block m (m : D)*block n s = block (m+n) ((m : D)+s) := by
  apply Layout.ext
  · simp only [block,mul_items,range_add,map_append,map_map]
    congr 1
    apply map_congr_left
    intro j _
    simp
  · rfl

theorem block_pow (n r : ℕ) : block n (n : D)^r = block (n*r) ((n*r : ℕ) : D) := by
  induction r with
  | zero => apply Layout.ext <;> simp [block]
  | succ r ih =>
    rw [pow_succ,ih,block_mul_block]
    simp [mul_succ]

/-- A run of consecutive cells. -/
@[ext] structure Extent (D : Type*) where
  disp : D
  bytes : ℕ
  deriving DecidableEq

instance : AddAction D (Extent D) where
  vadd d e := ⟨d + e.disp, e.bytes⟩
  zero_vadd _ := Extent.ext (zero_add _) rfl
  add_vadd _ _ _ := Extent.ext (add_assoc _ _ _) rfl

@[simp] theorem vadd_bytes (d : D) (e : Extent D) : (d +ᵥ e).bytes=e.bytes := rfl

def Extent.cells (e : Extent D) : List D := (List.range e.bytes).map fun j : ℕ => e.disp + j

theorem Extent.cells_vadd (d : D) (e : Extent D) :
    (d +ᵥ e).cells = e.cells.map (d +ᵥ ·) := by
  simp only [Extent.cells,map_map,vadd_bytes]
  apply map_congr_left
  intro j _
  exact add_assoc _ _ _

@[simp] theorem Extent.cells_length (e : Extent D) : e.cells.length=e.bytes := by
  simp [Extent.cells]

theorem Extent.cells_add (d : D) (m n : ℕ) :
    (⟨d,m+n⟩ : Extent D).cells = (⟨d,m⟩ : Extent D).cells ++ (⟨d+m,n⟩ : Extent D).cells := by
  simp only [Extent.cells,range_add,map_append,map_map]
  congr 1
  apply map_congr_left
  intro j _
  simp [add_assoc]

theorem Extent.cells_drop (d : D) {m n : ℕ} (h : m≤n) :
    (⟨d,n⟩ : Extent D).cells.drop m = (⟨d+m,n-m⟩ : Extent D).cells := by
  obtain ⟨k,rfl⟩ := Nat.exists_eq_add_of_le h
  have hlen : (⟨d,m⟩ : Extent D).cells.length=m := Extent.cells_length _
  rw [Extent.cells_add,drop_append_of_le_length hlen.ge,Nat.add_sub_cancel_left,
    drop_of_length_le hlen.le,nil_append]

/-- One run of `n` cells at the origin, as a pass over runs. -/
def run (n : ℕ) (s : D) : Layout (Extent D) D := ⟨[⟨0, n⟩], s⟩

@[simp] theorem run_advance (n : ℕ) (s : D) : (run n s).advance=s := rfl

@[simp] theorem run_items_length (n : ℕ) (s : D) : (run n s).items.length=1 := rfl

/-- The pass over cells behind a pass over runs. -/
def cells (x : Layout (Extent D) D) : Layout D D := x.expand Extent.cells

@[simp] theorem cells_advance (x : Layout (Extent D) D) : x.cells.advance=x.advance := rfl

@[simp] theorem cells_one : (1 : Layout (Extent D) D).cells=1 := rfl

@[simp] theorem cells_shift (s : D) : (shift s : Layout (Extent D) D).cells = shift s := rfl

@[simp] theorem cells_withAdvance (x : Layout (Extent D) D) (s : D) :
    (x.withAdvance s).cells = x.cells.withAdvance s := rfl

@[simp] theorem cells_mul (x y : Layout (Extent D) D) : (x*y).cells=x.cells*y.cells :=
  expand_mul _ Extent.cells_vadd x y

@[simp] theorem cells_pow (x : Layout (Extent D) D) (n : ℕ) : (x^n).cells=x.cells^n :=
  expand_pow _ Extent.cells_vadd x n

@[simp] theorem cells_run (n : ℕ) (s : D) : (run n s).cells = block n s := by
  apply Layout.ext
  · simp [cells,expand,run,Extent.cells,block]
  · rfl

end Block

section Periodic

variable [AddMonoid D]

/-- Cell number `o` of the layout repeated for ever, pass `q` being moved by `q` advances. -/
def cell (x : Layout D D) (o : ℕ) : D := (o / x.items.length) • x.advance + x.items.getD (o % x.items.length) 0

/-- The `n` cells of the periodic layout from number `o` on. -/
def window (x : Layout D D) (o n : ℕ) : List D := (List.range n).map fun i => x.cell (o + i)

@[simp] theorem window_length (x : Layout D D) (o n : ℕ) : (x.window o n).length=n := by
  simp [window]

@[simp] theorem window_zero (x : Layout D D) (o : ℕ) : x.window o 0 = [] := rfl

theorem window_add (x : Layout D D) (o m n : ℕ) :
    x.window o (m+n) = x.window o m ++ x.window (o+m) n := by
  simp only [window,range_add,map_append,map_map]
  congr 1
  apply map_congr_left
  intro i _
  simp [add_assoc]

theorem cell_of_lt (x : Layout D D) (q j : ℕ) (hj : j<x.items.length) :
    x.cell (q*x.items.length+j) = q • x.advance+x.items[j] := by
  have hpos : 0<x.items.length := by omega
  have hdiv : (q*x.items.length+j)/x.items.length=q := by
    rw [mul_comm,mul_add_div hpos,div_eq_of_lt hj,add_zero]
  have hmod : (q*x.items.length+j)%x.items.length=j := by rw [mul_comm,mul_add_mod,mod_eq_of_lt hj]
  rw [cell,hdiv,hmod]
  simp [List.getD,hj]

theorem window_eq_pass (x : Layout D D) (q j n : ℕ) (h : j+n≤x.items.length) :
    x.window (q*x.items.length+j) n = ((x.items.map (q • x.advance + ·)).drop j).take n := by
  apply ext_getElem
  · simp; omega
  · intro i hi _
    have hin : i<n := by simpa using hi
    simp only [window,getElem_map,getElem_range,getElem_take,getElem_drop,add_assoc]
    exact x.cell_of_lt q (j+i) (by omega)

end Periodic

end Layout

end PAMI.Math
