import Mathlib.Algebra.Ring.Nat
import Mathlib.Data.List.Basic

namespace PAMI.Math

open List

/-- A reader of a text, which fails or leaves the rest of it. -/
abbrev Reader (α : Type) := StateT (List Char) Option α

/-- A reader finds a value that was written at the front of a text. -/
def Reads {α : Type} (reader : Reader α) (written : List Char) (a : α) : Prop :=
  ∀ rest, reader.run (written ++ rest) = some (a, rest)

/-- As many characters as are asked for, if they are there. -/
def readChars (k : ℕ) : Reader (List Char) := fun text =>
  if k ≤ text.length then some (text.take k, text.drop k) else none

def readList {α : Type} (reader : Reader α) : ℕ → Reader (List α)
  | 0 => pure []
  | n + 1 => do
    let a ← reader
    let as ← readList reader n
    pure (a :: as)

/-- A number as eight characters, the lowest first. -/
def word (n : ℕ) : List Char := (List.range 8).map fun i => Char.ofNat (n / 256 ^ i % 256)

def wordValue (text : List Char) : ℕ := text.foldr (fun c n => c.toNat + 256 * n) 0

def readWord : Reader ℕ := do
  let text ← readChars 8
  pure (wordValue text)

variable {α β : Type} {reader : Reader α} {written written' text : List Char} {a : α} {b : β} {n : ℕ}

theorem Reads.pure (a : α) : Reads (pure a) [] a := fun _ => rfl

theorem Reads.bind {next : α → Reader β} (h : Reads reader written a) (h' : Reads (next a) written' b) :
    Reads (reader >>= next) (written ++ written') b := by
  intro rest
  rw [StateT.run_bind,append_assoc,h]
  exact h' rest

theorem Reads.map {f : α → β} (h : Reads reader written a) :
    Reads (do let a ← reader; Pure.pure (f a)) written (f a) := by
  intro rest
  rw [StateT.run_bind,h]
  rfl

theorem reads_readChars : Reads (readChars text.length) text text := by
  intro rest
  change (if _ then _ else _) = _
  rw [if_pos (by rw [length_append]; exact Nat.le_add_right _ _),take_left,drop_left]

theorem Reads.list {write : α → List Char} {as : List α} (h : ∀ a ∈ as, Reads reader (write a) a) :
    Reads (readList reader as.length) (as.flatMap write) as := by
  induction as with
  | nil => exact Reads.pure []
  | cons a as ih =>
    rw [flatMap_cons]
    apply (h a mem_cons_self).bind
    apply Reads.map
    exact ih fun a ha => h a (mem_cons_of_mem _ ha)

@[simp] theorem length_word : (word n).length=8 := by
  rw [word,length_map,length_range]

theorem toNat_ofNat (h : n<256) : (Char.ofNat n).toNat=n := by
  have hval : n.isValidChar := Or.inl (by omega)
  rw [Char.ofNat,dif_pos hval]
  rfl

theorem digits_value (k n : ℕ) :
    ((List.range k).map fun i => Char.ofNat (n/256^i%256)).foldr (fun c n => c.toNat+256*n) 0 = n%256^k := by
  induction k generalizing n with
  | zero => simp [Nat.mod_one]
  | succ k ih =>
    have hnx := ih (n/256)
    simp only [Nat.div_div_eq_div_mul,← pow_succ'] at hnx
    rw [range_succ_eq_map,map_cons,foldr_cons,map_map,pow_zero,Nat.div_one,
      toNat_ofNat (Nat.mod_lt n (by decide)),pow_succ',Nat.mod_mul,← hnx]
    rfl

theorem wordValue_word_mod : wordValue (word n) = n%2^64 := digits_value 8 n

theorem wordValue_word (hn : n<2^64) : wordValue (word n) = n := wordValue_word_mod.trans (Nat.mod_eq_of_lt hn)

theorem reads_readWord (hn : n<2^64) : Reads readWord (word n) n := by
  have h : Reads (readChars 8) (word n) (word n) := by
    have hcha : Reads (readChars (word n).length) (word n) (word n) := reads_readChars
    rwa [length_word] at hcha
  have hread := h.map (f := wordValue)
  rwa [wordValue_word hn] at hread

end PAMI.Math
