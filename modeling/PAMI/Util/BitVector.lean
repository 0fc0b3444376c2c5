import Mathlib.Algebra.Group.Nat.Defs
import Mathlib.Data.List.GetD
import Mathlib.Logic.Function.Basic
import Mathlib.Tactic.ByContra

namespace PAMI.Util

open List Nat BitVec

def numBitWords (w size : ℕ) : ℕ := (size + w - 1) / w

/-- A vector of bits in words of `w` bits. -/
structure BitVector (w : ℕ) where
  bits : List (BitVec w)
  size : ℕ
  capacity : bits.length = numBitWords w size

namespace BitVector

variable {w : ℕ}

def new (w size : ℕ) : BitVector w where
  bits := List.replicate (numBitWords w size) 0
  size := size
  capacity := length_replicate

def set (v : BitVector w) (n : ℕ) : BitVector w where
  bits := v.bits.modify (n / w) fun bit => bit ||| 1#w <<< (n % w)
  size := v.size
  capacity := (length_modify _ _ _).trans v.capacity

def clear (v : BitVector w) (n : ℕ) : BitVector w where
  bits := v.bits.modify (n / w) fun bit => bit &&& ~~~(1#w <<< (n % w))
  size := v.size
  capacity := (length_modify _ _ _).trans v.capacity

def get (v : BitVector w) (n : ℕ) : Bool := v.bits.getD (n / w) 0 &&& 1#w <<< (n % w) != 0

variable {v : BitVector w} {n m : ℕ}

theorem lt_capacity (hw : 0<w) (hn : n<v.size) : n/w<v.bits.length := by
  rw [v.capacity,numBitWords,lt_iff_add_one_le,Nat.le_div_iff_mul_le hw,Nat.add_mul,Nat.one_mul]
  have := div_mul_le_self n w
  omega

theorem get_eq (hw : 0<w) (v : BitVector w) (n : ℕ) : v.get n = (v.bits.getD (n/w) 0).getLsbD (n%w) := by
  have hlt := mod_lt n hw
  rw [get,← twoPow_eq,and_twoPow]
  cases (v.bits.getD (n/w) 0).getLsbD (n%w) with
  | false => simp
  | true =>
    have hne : BitVec.twoPow w (n%w)≠0#w := by
      intro heq
      have hbit := congrArg (fun x => BitVec.getLsbD x (n%w)) heq
      simp [hlt] at hbit
    simp [hne]

theorem getD_modify (l : List (BitVec w)) (f : BitVec w → BitVec w) (i j : ℕ) (hi : i<l.length) :
    (l.modify i f).getD j 0 = if i=j then f (l.getD j 0) else l.getD j 0 := by
  rw [getD_eq_getElem?_getD,getD_eq_getElem?_getD,List.getElem?_modify]
  split
  case isTrue heq =>
    subst heq
    rw [List.getElem?_eq_getElem hi]
    rfl
  case isFalse => simp

theorem get_new (hw : 0<w) (size : ℕ) : (new w size).get n = false := by
  rw [get_eq hw,getD_eq_getElem?_getD,new,List.getElem?_replicate]
  split <;> simp

theorem mod_eq_iff (hdiv : n/w=m/w) : n%w=m%w ↔ m=n := by
  constructor
  · intro hmod
    rw [← div_add_mod m w,← div_add_mod n w,hdiv,hmod]
  · rintro rfl
    rfl

theorem get_set (hw : 0<w) (hn : n<v.size) : (v.set n).get m = (v.get m || decide (m=n)) := by
  rw [get_eq hw,get_eq hw,set,getD_modify _ _ _ _ (lt_capacity hw hn)]
  split
  case isTrue hdiv =>
    rw [getLsbD_or,← twoPow_eq,getLsbD_twoPow]
    simp [mod_lt n hw,mod_eq_iff hdiv]
  case isFalse hdiv =>
    have hne : m≠n := fun heq => hdiv (heq ▸ rfl)
    simp [hne]

theorem get_clear (hw : 0<w) (hn : n<v.size) : (v.clear n).get m = (v.get m && decide (m≠n)) := by
  rw [get_eq hw,get_eq hw,clear,getD_modify _ _ _ _ (lt_capacity hw hn)]
  split
  case isTrue hdiv =>
    rw [getLsbD_and,getLsbD_not,← twoPow_eq,getLsbD_twoPow]
    simp [mod_lt n hw,mod_lt m hw,mod_eq_iff hdiv]
  case isFalse hdiv =>
    have hne : m≠n := fun heq => hdiv (heq ▸ rfl)
    simp [hne]

end BitVector

open Function

theorem numBitWords_zero (w : ℕ) : numBitWords w 0 = 0 := by
  rw [numBitWords,Nat.zero_add]
  exact Nat.div_eq_zero_iff.mpr (by omega)

/-- `BITWORD_SIZE`, with and without `__64BIT__`. -/
def bitwordSize (is64BIT : Bool) : ℕ := if is64BIT then 64 else 32

namespace BitVector

variable {w : ℕ}

/-- A word after the `memset`, which sets each byte to one or to zero. -/
def memset (w : ℕ) (val : Bool) : BitVec w := ((if val then 1#8 else 0#8).replicate (w / 8)).setWidth w

/-- The constructor, whose `numBitWords` is of 32 bits. `none` stands for memory that is too short for the bits. -/
def create (w : ℕ) (size : BitVec 32) (val : Bool) : Option {v : BitVector w // v.size = size.toNat} :=
  if (size.toNat + w - 1) % 2^32 / w = numBitWords w size.toNat then
    some ⟨⟨List.replicate (numBitWords w size.toNat) (memset w val), size.toNat, length_replicate⟩, rfl⟩
  else none

def copy (right : BitVector w) : BitVector w :=
  if h : right.size = 0 then ⟨[], right.size, h ▸ (numBitWords_zero w).symm⟩
  else ⟨right.bits.take (numBitWords w right.size), right.size, by simp [right.capacity]⟩

def flip (v : BitVector w) (n : ℕ) : BitVector w where
  bits := v.bits.modify (n / w) fun bit => bit ^^^ 1#w <<< (n % w)
  size := v.size
  capacity := (length_modify _ _ _).trans v.capacity

variable {v : BitVector w} {n m : ℕ}

theorem copy_eq (v : BitVector w) : v.copy=v := by
  obtain ⟨bits,size,hcap⟩ := v
  rw [copy]
  split
  case isTrue hzr =>
    obtain rfl : size=0 := hzr
    have hnil : bits = [] := eq_nil_of_length_eq_zero (hcap.trans (numBitWords_zero w))
    simp [hnil]
  case isFalse => simp [← hcap]

theorem get_flip (hw : 0<w) (hn : n<v.size) : (v.flip n).get m = (v.get m ^^ decide (m=n)) := by
  rw [get_eq hw,get_eq hw,flip,getD_modify _ _ _ _ (lt_capacity hw hn)]
  split
  case isTrue hdiv =>
    rw [getLsbD_xor,← twoPow_eq,getLsbD_twoPow]
    simp [mod_lt n hw,mod_eq_iff hdiv]
  case isFalse hdiv =>
    have hne : m≠n := fun heq => hdiv (heq ▸ rfl)
    simp [hne]

theorem getLsbD_memset (h8 : 8 ∣ w) (val : Bool) {i : ℕ} (hi : i<w) :
    (memset w val).getLsbD i = (val && decide (i%8=0)) := by
  have hbyt : 8*(w/8)=w := Nat.mul_div_cancel' h8
  have hmod : i%8<8 := mod_lt i (by decide)
  rw [memset,getLsbD_setWidth,getLsbD_replicate,hbyt]
  cases val with
  | false => simp
  | true =>
    have hone : ∀ k<8, (1#8).getLsbD k = decide (k=0) := by decide
    simp [hi,hone _ hmod]

theorem get_create {size : BitVec 32} {val : Bool} {v : {v : BitVector w // v.size = size.toNat}} (hw : 0<w)
    (h8 : 8 ∣ w) (hv : create w size val = some v) (hn : n < size.toNat) :
    v.1.get n = (val && decide (n%8=0)) := by
  obtain ⟨-,hv⟩ := Option.ite_none_right_eq_some.mp hv
  have hlt : n/w<numBitWords w size.toNat := by
    rw [← v.2,← v.1.capacity]
    exact lt_capacity hw (lt_of_lt_of_eq hn v.2.symm)
  have hdvd : n%w%8=n%8 := mod_mod_of_dvd n h8
  rw [get_eq hw,← Option.some.inj hv,getD_eq_getElem?_getD,List.getElem?_replicate,if_pos hlt,
    Option.getD_some,getLsbD_memset h8 val (mod_lt n hw),hdvd]

theorem exists_create_iff {size : BitVec 32} {val : Bool} (hw : 0<w) (hlt : w<2^32) :
    (∃ v, create w size val = some v) ↔ size.toNat+w≤2^32 := by
  have hsi := size.isLt
  have hwor : (size.toNat+w-1)%2^32/w=numBitWords w size.toNat ↔ size.toNat+w≤2^32 := by
    rw [numBitWords]
    constructor
    · intro heq
      by_contra hwrap
      have hmod : (size.toNat+w-1)%2^32=size.toNat+w-1-2^32 := by omega
      have hzr : (size.toNat+w-1)%2^32/w=0 := div_eq_of_lt (by omega)
      have hpos : 0<(size.toNat+w-1)/w := Nat.div_pos (by omega) hw
      omega
    · intro hle
      rw [mod_eq_of_lt (by omega)]
  rw [← hwor,create]
  split <;> simp_all

end BitVector

/-- A call on the `i`th of the vectors built so far; `copy` builds one more. -/
inductive BitCall (size : ℕ)
  | set (i : ℕ) (n : Fin size)
  | clear (i : ℕ) (n : Fin size)
  | flip (i : ℕ) (n : Fin size)
  | get (i : ℕ) (n : Fin size)
  | copy (i : ℕ)

structure BitOps (size : ℕ) (V : Type) where
  set : V → Fin size → V
  clear : V → Fin size → V
  flip : V → Fin size → V
  get : V → Fin size → Bool
  copy : V → V

namespace BitOps

variable {size : ℕ} {V V' : Type}

/-- What the calls of `get` return, one after the other. -/
def run (ops : BitOps size V) : List V → List (BitCall size) → List Bool
  | _, [] => []
  | vs, .set i n :: calls => ops.run (vs.modify i fun v => ops.set v n) calls
  | vs, .clear i n :: calls => ops.run (vs.modify i fun v => ops.clear v n) calls
  | vs, .flip i n :: calls => ops.run (vs.modify i fun v => ops.flip v n) calls
  | vs, .get i n :: calls => (vs[i]?.map fun v => ops.get v n).toList ++ ops.run vs calls
  | vs, .copy i :: calls => ops.run (vs ++ (vs[i]?.map ops.copy).toList) calls

def array (size : ℕ) : BitOps size (Fin size → Bool) where
  set a n := Function.update a n true
  clear a n := Function.update a n false
  flip a n := Function.update a n (!a n)
  get a n := a n
  copy a := a

def bitVector (w size : ℕ) : BitOps size {v : BitVector w // v.size = size} where
  set v n := ⟨v.1.set n, v.2⟩
  clear v n := ⟨v.1.clear n, v.2⟩
  flip v n := ⟨v.1.flip n, v.2⟩
  get v n := v.1.get n
  copy v := ⟨v.1.copy, (congrArg BitVector.size v.1.copy_eq).trans v.2⟩

/-- `f` takes the vectors of one implementation to those of another. -/
structure Simulates (ops : BitOps size V) (ops' : BitOps size V') (f : V → V') : Prop where
  set : ∀ v n, f (ops.set v n) = ops'.set (f v) n
  clear : ∀ v n, f (ops.clear v n) = ops'.clear (f v) n
  flip : ∀ v n, f (ops.flip v n) = ops'.flip (f v) n
  get : ∀ v n, ops.get v n = ops'.get (f v) n
  copy : ∀ v, f (ops.copy v) = ops'.copy (f v)

theorem map_modify {f : V → V'} {g : V → V} (g' : V' → V') (h : ∀ v, f (g v) = g' (f v)) (vs : List V) (i : ℕ) :
    (vs.modify i g).map f = (vs.map f).modify i g' := by
  induction vs generalizing i with
  | nil => simp
  | cons v vs ih => cases i <;> simp [h,ih]

theorem Simulates.run_eq {ops : BitOps size V} {ops' : BitOps size V'} {f : V → V'} (h : ops.Simulates ops' f)
    (vs : List V) (calls : List (BitCall size)) : ops.run vs calls = ops'.run (vs.map f) calls := by
  induction calls generalizing vs with
  | nil => simp [run]
  | cons call calls ih =>
    cases call with
    | set i n => rw [run,run,ih,map_modify (fun v => ops'.set v n) (fun v => h.set v n)]
    | clear i n => rw [run,run,ih,map_modify (fun v => ops'.clear v n) (fun v => h.clear v n)]
    | flip i n => rw [run,run,ih,map_modify (fun v => ops'.flip v n) (fun v => h.flip v n)]
    | get i n => cases hv : vs[i]? <;> simp [run,ih,hv,h.get]
    | copy i => cases hv : vs[i]? <;> simp [run,ih,hv,h.copy]

theorem bitVector_simulates {w : ℕ} (hw : 0<w) (size : ℕ) :
    (bitVector w size).Simulates (array size) fun v n => v.1.get n where
  set v n := by
    funext m
    have hn : n<v.1.size := lt_of_lt_of_eq n.2 v.2.symm
    simp only [bitVector,array,BitVector.get_set hw hn,update_apply,Fin.ext_iff]
    grind
  clear v n := by
    funext m
    have hn : n<v.1.size := lt_of_lt_of_eq n.2 v.2.symm
    simp only [bitVector,array,BitVector.get_clear hw hn,update_apply,Fin.ext_iff]
    grind
  flip v n := by
    funext m
    have hn : n<v.1.size := lt_of_lt_of_eq n.2 v.2.symm
    simp only [bitVector,array,BitVector.get_flip hw hn,update_apply,Fin.ext_iff]
    grind
  get v n := rfl
  copy v := by simp [bitVector,array,BitVector.copy_eq]

end BitOps

namespace BitVector

/-- Whether a new vector answers every sequence of calls as an array of booleans does. -/
def ActsAsArray (w : ℕ) (size : BitVec 32) (val : Bool) : Prop :=
  ∃ v, create w size val = some v ∧
    ∀ calls, (BitOps.bitVector w size.toNat).run [v] calls = (BitOps.array size.toNat).run [fun _ => val] calls

theorem actsAsArray_iff (is64BIT : Bool) (size : BitVec 32) (val : Bool) :
    ActsAsArray (bitwordSize is64BIT) size val ↔
      (val = false ∨ size.toNat ≤ 1) ∧ size.toNat + bitwordSize is64BIT ≤ 2^32 := by
  obtain ⟨hw,h8,hlt⟩ : 0<bitwordSize is64BIT ∧ 8 ∣ bitwordSize is64BIT ∧ bitwordSize is64BIT<2^32 := by
    cases is64BIT <;> decide
  constructor
  · rintro ⟨v,hv,hcal⟩
    refine ⟨?_,(exists_create_iff hw hlt).mp ⟨v,hv⟩⟩
    by_contra h
    obtain ⟨hval,hsi⟩ : val=true ∧ 1 < size.toNat := by simpa using h
    -- The second bit is the first that the memset does not reach.
    have hget := hcal [.get 0 ⟨1,hsi⟩]
    have hbit := get_create hw h8 hv hsi
    simp [BitOps.run,BitOps.bitVector,BitOps.array,hbit,hval] at hget
  · rintro ⟨hval,hle⟩
    obtain ⟨v,hv⟩ : ∃ v, create (bitwordSize is64BIT) size val = some v := (exists_create_iff hw hlt).mpr hle
    refine ⟨v,hv,fun calls => ?_⟩
    rw [(BitOps.bitVector_simulates hw size.toNat).run_eq]
    have hbits : (fun n : Fin size.toNat => v.1.get n) = fun _ => val := by
      funext n
      rw [get_create hw h8 hv n.2]
      rcases hval with rfl | hone
      · simp
      · have hzr : n.val=0 := by omega
        simp [hzr]
    rw [map_singleton,hbits]

theorem not_actsAsArray : ¬ ActsAsArray 64 2#32 true := by
  rintro ⟨v,hv,hcal⟩
  have hget := hcal [.get 0 ⟨1,by decide⟩]
  have hbit := get_create (by decide) (by decide) hv (n := 1) (by decide)
  simp [BitOps.run,BitOps.bitVector,BitOps.array,hbit] at hget

end BitVector

end PAMI.Util
