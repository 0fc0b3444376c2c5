import Mathlib.Algebra.Ring.Nat
import Mathlib.Data.List.Basic

namespace PAMI.Math

open List Nat

/-- Numbers in decimal, with commas between them. -/
def commaList : List ℕ → List Char
  | [] => []
  | [n] => Nat.toDigits 10 n
  | n :: ns => Nat.toDigits 10 n ++ ',' :: commaList ns

/-- The values between commas, by what a character makes of the value so far. -/
def commaValues (digit : ℕ → Char → ℕ) (value : ℕ) : List Char → List ℕ
  | [] => [value]
  | c :: cs => if c = ',' then value :: commaValues digit 0 cs else commaValues digit (digit value c) cs

variable {digit : ℕ → Char → ℕ} {n value : ℕ} {ns : List ℕ} {cs : List Char}

theorem commaList_cons (hns : ns ≠ []) : commaList (n :: ns) = Nat.toDigits 10 n ++ ',' :: commaList ns := by
  cases ns with
  | nil => exact absurd rfl hns
  | cons m ns => rfl

theorem commaValues_append (hcs : ∀ c ∈ cs, c ≠ ',') (rest : List Char) :
    commaValues digit value (cs ++ rest) = commaValues digit (cs.foldl digit value) rest := by
  induction cs generalizing value with
  | nil => rfl
  | cons c cs ih =>
    rw [cons_append,commaValues,if_neg (hcs c mem_cons_self),foldl_cons]
    exact ih fun c' hc' => hcs c' (mem_cons_of_mem c hc')

theorem ne_comma_of_mem_toDigits {c : Char} (hc : c ∈ Nat.toDigits 10 n) : c ≠ ',' := by
  have hdig := isDigit_of_mem_toDigits (by decide) (by decide) hc
  intro heq
  rw [heq] at hdig
  exact absurd hdig (by decide)

theorem commaValues_commaList (hns : ns ≠ []) (h : ∀ n ∈ ns, (Nat.toDigits 10 n).foldl digit 0 = n) :
    commaValues digit 0 (commaList ns) = ns := by
  induction ns with
  | nil => exact absurd rfl hns
  | cons n ns ih =>
    have hn := h n mem_cons_self
    by_cases hnil : ns = []
    · rw [hnil,commaList,← append_nil (Nat.toDigits 10 n),
        commaValues_append fun c hc => ne_comma_of_mem_toDigits hc,commaValues,hn]
    · rw [commaList_cons hnil,commaValues_append fun c hc => ne_comma_of_mem_toDigits hc,commaValues,if_pos rfl,hn,
        ih hnil fun m hm => h m (mem_cons_of_mem n hm)]

theorem commaList_inj {ms : List ℕ} (hms : ms ≠ []) (hns : ns ≠ []) (h : commaList ms = commaList ns) : ms=ns := by
  have hread : ∀ {ls : List ℕ}, ls ≠ [] →
      commaValues (fun value c => 10*value+(c.toNat - '0'.toNat)) 0 (commaList ls)=ls := by
    intro ls hls
    apply commaValues_commaList hls
    intro n _
    exact ofDigitChars_ten_toDigits
  rw [← hread hms,h,hread hns]

theorem two_mul_length_le_length_commaList (hns : ns ≠ []) : 2*ns.length≤(commaList ns).length+1 := by
  induction ns with
  | nil => exact absurd rfl hns
  | cons n ns ih =>
    have hpos : 0<(Nat.toDigits 10 n).length := length_toDigits_pos
    by_cases hnil : ns = []
    · rw [hnil,commaList]
      exact succ_le_succ hpos
    · have hrs := ih hnil
      rw [commaList_cons hnil,length_append,length_cons,length_cons]
      omega

end PAMI.Math
