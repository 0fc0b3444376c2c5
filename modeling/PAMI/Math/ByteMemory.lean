import Mathlib.Data.List.Basic
import Mathlib.Order.Nat

namespace PAMI.Math

open List Nat

variable {V α : Type*}

def readBytes (buf : ℕ → V) (off len : ℕ) : List V := (List.range len).map fun k => buf (off + k)

def writeBytes (buf : ℕ → V) (off : ℕ) (x : List V) : ℕ → V :=
  fun p => if off ≤ p then (x[p - off]?).getD (buf p) else buf p

variable {buf buf' : ℕ → V} {off off' len i : ℕ} {x : List V}

@[simp] theorem length_readBytes : (readBytes buf off len).length=len := by
  rw [readBytes,length_map,length_range]

theorem readBytes_zero : readBytes buf off 0 = [] := rfl

theorem readBytes_congr (h : ∀ k<len, buf (off+k) = buf' (off'+k)) :
    readBytes buf off len = readBytes buf' off' len :=
  map_congr_left fun k hk => h k (mem_range.mp hk)

theorem readBytes_add (len' : ℕ) :
    readBytes buf off (len+len') = readBytes buf off len ++ readBytes buf (off+len) len' := by
  rw [readBytes,range_add,map_append,List.map_map]
  refine congrArg _ (map_congr_left fun k _ => ?_)
  rw [Function.comp_apply,Nat.add_assoc]

theorem take_drop_readBytes (h : i+len'≤len) :
    ((readBytes buf off len).drop i).take len' = readBytes buf (off+i) len' := by
  obtain ⟨k,rfl⟩ := Nat.exists_eq_add_of_le h
  rw [Nat.add_assoc,readBytes_add,drop_left' length_readBytes,readBytes_add,take_left' length_readBytes]

theorem writeBytes_of_outside {p : ℕ} (h : p<off ∨ off+x.length≤p) : writeBytes buf off x p = buf p := by
  rw [writeBytes]
  split
  case isTrue hle => rw [List.getElem?_eq_none (by omega),Option.getD_none]
  case isFalse => rfl

theorem writeBytes_inside (h : i<x.length) : writeBytes buf off x (off+i) = x[i] := by
  rw [writeBytes,if_pos (Nat.le_add_right _ _),Nat.add_sub_cancel_left,List.getElem?_eq_getElem h,Option.getD_some]

theorem readBytes_writeBytes_of_disjoint (h : off'+len≤off ∨ off+x.length≤off' ∨ len=0 ∨ x.length=0) :
    readBytes (writeBytes buf off x) off' len = readBytes buf off' len :=
  readBytes_congr fun _ _ => writeBytes_of_outside (by omega)

theorem readBytes_writeBytes (h : i+len≤x.length) :
    readBytes (writeBytes buf off x) (off+i) len = (x.drop i).take len := by
  apply ext_getElem
  · rw [length_readBytes,length_take,length_drop]
    omega
  · intro k hk _
    rw [length_readBytes] at hk
    rw [getElem_take,getElem_drop]
    simp only [readBytes,getElem_map,getElem_range]
    rw [Nat.add_assoc,writeBytes_inside (by omega)]

theorem readBytes_writeBytes_self : readBytes (writeBytes buf off x) off x.length = x := by
  have h : readBytes (writeBytes buf off x) (off+0) x.length = (x.drop 0).take x.length :=
    readBytes_writeBytes (by omega)
  simpa using h

section Blocks

variable {f : α → List V} {l : List α}

theorem length_flatMap (h : ∀ a ∈ l, (f a).length=len) : (l.flatMap f).length=l.length*len := by
  induction l with
  | nil => simp
  | cons a l ih =>
    rw [flatMap_cons,length_append,h a mem_cons_self,
      ih fun b hb => h b (mem_cons_of_mem a hb),length_cons,succ_mul,Nat.add_comm]

theorem take_drop_flatMap (h : ∀ a ∈ l, (f a).length=len) {j : ℕ} {a : α} (hj : l[j]? = some a) :
    ((l.flatMap f).drop (j*len)).take len = f a := by
  induction l generalizing j with
  | nil => contradiction
  | cons b l ih =>
    have hb := h b mem_cons_self
    cases j with
    | zero =>
      obtain rfl := Option.some.inj hj
      rw [Nat.zero_mul,drop_zero,flatMap_cons,take_left' hb]
    | succ j =>
      rw [flatMap_cons,succ_mul,Nat.add_comm,← drop_drop,drop_left' hb,
        ih (fun a ha => h a (mem_cons_of_mem b ha)) hj]

theorem readBytes_mul (n : ℕ) :
    readBytes buf off (n*len) = (List.range n).flatMap fun j => readBytes buf (off+j*len) len := by
  induction n with
  | zero => rw [Nat.zero_mul,range_zero,flatMap_nil,readBytes_zero]
  | succ n ih => rw [succ_mul,readBytes_add,ih,range_succ,flatMap_append,flatMap_singleton]

theorem readBytes_copy {src : ℕ → V} {start pos a b n k : ℕ} (hoff : off=a*len) (hsta : start=b*len)
    (hk : k<n) (hpos : pos=(a+k)*len) :
    readBytes (writeBytes buf off (readBytes src start (n*len))) pos len = readBytes src ((b+k)*len) len := by
  have hft : k*len+len≤n*len := by
    rw [← succ_mul]
    exact Nat.mul_le_mul_right _ hk
  rw [hpos,hoff,hsta,Nat.add_mul,readBytes_writeBytes (by rw [length_readBytes]; exact hft),
    take_drop_readBytes hft,Nat.add_mul]

theorem readBytes_copy_of_ne {src : ℕ → V} {start pos a n k : ℕ} (hoff : off=a*len) (hpos : pos=k*len)
    (hk : k<a ∨ a+n≤k ∨ n=0) :
    readBytes (writeBytes buf off (readBytes src start (n*len))) pos len = readBytes buf pos len := by
  apply readBytes_writeBytes_of_disjoint
  rw [length_readBytes,hoff,hpos]
  obtain hlt | hle | rfl := hk
  · left
    rw [← succ_mul]
    exact Nat.mul_le_mul_right _ hlt
  · right; left
    rw [← Nat.add_mul]
    exact Nat.mul_le_mul_right _ hle
  · right; right; right
    exact Nat.zero_mul _

end Blocks

end PAMI.Math
