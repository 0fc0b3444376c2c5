import Mathlib.Algebra.Order.Group.Nat
import Mathlib.Algebra.Ring.Nat
import Mathlib.Data.List.Basic

namespace PAMI.Math

open List

section Packets

variable {β : Type*} (filler : β) (width : ℕ)

/-- A packet of a message which is cut into packets of one size; what is beyond the message is
filled up. -/
def packet (message : List β) (i : ℕ) : List β :=
  let part := (message.drop (i*width)).take width
  part ++ List.replicate (width - part.length) filler

def packetCount (message : List β) : ℕ := (message.length + width - 1) / width

/-- A receiver that knows the length of the message adds what is missing of a full packet. -/
def receive (total : ℕ) (received payload : List β) : List β :=
  received ++ payload.take (min width (total - received.length))

variable {filler width} {message : List β} {i : ℕ}

theorem receive_packet :
    receive width message.length (message.take (i*width)) (packet filler width message i) =
      message.take ((i+1)*width) := by
  have htake : (packet filler width message i).take
      (min width (message.length-(message.take (i*width)).length)) = (message.drop (i*width)).take width := by
    have hpart : ((message.drop (i*width)).take width).length =
        min width (message.length-(message.take (i*width)).length) := by
      rw [length_take,length_drop,length_take]
      omega
    rw [packet,← hpart]
    exact take_left
  rw [receive,htake,Nat.succ_mul,take_add]

theorem take_packet_of_lt (h : i*width < message.length) :
    message.take (i*width) ++ (packet filler width message i).take
      (min width (message.length-i*width)) = message.take ((i+1)*width) := by
  have hrcv : receive width message.length (message.take (i*width)) (packet filler width message i) =
      message.take ((i+1)*width) := receive_packet
  have hlng : (message.take (i*width)).length=i*width := by
    rw [length_take]
    omega
  rw [receive,hlng] at hrcv
  exact hrcv

theorem lt_packetCount (hwid : 0<width) :
    i < packetCount width message ↔ i*width < message.length := by
  rw [packetCount,Nat.lt_div_iff_mul_lt hwid]
  omega

theorem length_le_packetCount (hwid : 0<width) :
    message.length ≤ packetCount width message*width := by
  by_contra h
  have hlt : packetCount width message < packetCount width message := (lt_packetCount hwid).mpr (by omega)
  omega

theorem receive_single {total : ℕ} {received : List β}
    (h : message.length = min width (total-received.length)) :
    receive width total received (packet filler width message 0) = received ++ message := by
  have hpart : (message.drop (0*width)).take width=message := by
    rw [Nat.zero_mul,drop_zero]
    apply take_of_length_le
    omega
  rw [receive,packet,hpart,← h]
  congr 1
  exact take_left

end Packets

section Packing

variable {β : Type*} (size : ℕ)

/-- Blocks go into a buffer as long as they fit: the buffer, and the blocks that are left. -/
@[grind =] def fill : List β → List (List β) → List β × List (List β)
  | buf, [] => (buf, [])
  | buf, b :: q => if buf.length + b.length ≤ size then fill (buf ++ b) q else (buf, b :: q)

/-- The first parts that blocks are sent in: one buffer after the other, and the last block alone. -/
@[grind =] def packs : ℕ → List (List β) → List (List β)
  | 0, _ => []
  | _ + 1, [] => []
  | _ + 1, [b] => [b]
  | n + 1, b :: c :: q => (fill size [] (b :: c :: q)).1 :: packs n (fill size [] (b :: c :: q)).2

/-- All blocks but the last one fit into an empty buffer. -/
def Fits (q : List (List β)) : Prop := ∀ b ∈ q.dropLast, b.length ≤ size

instance (q : List (List β)) : Decidable (Fits size q) :=
  inferInstanceAs (Decidable (∀ b ∈ q.dropLast, b.length ≤ size))

variable {size} {buf b : List β} {q : List (List β)} {n : ℕ}

theorem fill_split (buf : List β) (q : List (List β)) :
    ∃ pre, q = pre ++ (fill size buf q).2 ∧ (fill size buf q).1 = buf ++ pre.flatten ∧ ∀ b ∈ pre, b.length ≤ size := by
  induction q generalizing buf with
  | nil => exact ⟨[],by simp [fill]⟩
  | cons b q ih =>
    by_cases hb : buf.length+b.length ≤ size
    · obtain ⟨pre,hq,hbuf,hpre⟩ := ih (buf ++ b)
      refine ⟨b :: pre,?_,?_,?_⟩
      · simpa [fill,hb] using hq
      · simpa [fill,hb] using hbuf
      · intro c hc
        obtain rfl | hc := mem_cons.mp hc
        · omega
        · exact hpre c hc
    · exact ⟨[],by simp [fill,hb]⟩

theorem fill_flatten (buf : List β) (q : List (List β)) :
    (fill size buf q).1 ++ (fill size buf q).2.flatten = buf ++ q.flatten := by
  obtain ⟨pre,hq,hbuf,-⟩ := @fill_split β size buf q
  rw [hbuf,append_assoc,← flatten_append,← hq]

theorem fill_min {total : ℕ} (h : buf.length+q.flatten.length≤total) :
    fill (min total size) buf q = fill size buf q := by
  induction q generalizing buf with
  | nil => simp [fill]
  | cons b q ih =>
    simp only [flatten_cons,length_append] at h
    have hiff : buf.length+b.length ≤ min total size ↔ buf.length+b.length ≤ size := by omega
    have hrs : (buf ++ b).length+q.flatten.length≤total := by
      rw [length_append]
      omega
    simp only [fill,hiff,ih hrs]

theorem fill_stuck (h : size<b.length) : fill size [] (b :: q) = ([], b :: q) := by
  simp [fill,Nat.not_le.mpr h]

theorem fill_progress (h : b.length ≤ size) :
    ∃ pre, q = pre ++ (fill size [] (b :: q)).2 ∧ (fill size [] (b :: q)).1 = b ++ pre.flatten ∧
      ∀ b ∈ pre, b.length ≤ size := by
  have hfill : fill size [] (b :: q) = fill size b q := by simp [fill,h]
  rw [hfill]
  exact fill_split b q

theorem Fits.tail {pre : List (List β)} (h : Fits size (pre ++ q)) : Fits size q := by
  intro b hb
  have hne : q ≠ [] := by
    intro heq
    simp [heq] at hb
  apply h
  rw [dropLast_append_of_ne_nil hne]
  exact mem_append_right _ hb

theorem packs_nil : packs size n ([] : List (List β)) = [] := by
  cases n <;> rfl

theorem packs_mono (n m : ℕ) (q : List (List β)) : packs size n q <+: packs size (n+m) q := by
  induction n generalizing q with
  | zero => simp [packs]
  | succ n ih =>
    rw [Nat.succ_add]
    match q with
    | [] => simp [packs]
    | [b] => simp [packs]
    | b :: c :: q => simpa [packs] using ih _

theorem packs_prefix : (packs size n q).flatten <+: q.flatten := by
  induction n generalizing q with
  | zero => simp [packs]
  | succ n ih =>
    match q with
    | [] => simp [packs]
    | [b] => simp [packs]
    | b :: c :: q =>
      have hfill := @fill_flatten β size [] (b :: c :: q)
      rw [nil_append] at hfill
      rw [packs,flatten_cons,← hfill]
      exact prefix_append_right_inj _ |>.mpr ih

theorem Fits.rest {c : List β} (h : Fits size (b :: c :: q)) :
    Fits size (fill size [] (b :: c :: q)).2 ∧ (fill size [] (b :: c :: q)).2.length≤(c :: q).length := by
  obtain ⟨pre,hq,-,-⟩ := fill_progress (q := c :: q) (h b (by simp))
  refine ⟨@Fits.tail _ _ _ (b :: pre) ?_,?_⟩
  · rwa [cons_append,← hq]
  · have hlen := congrArg List.length hq
    rw [length_append] at hlen
    omega

theorem Fits.packs_length_le (h : Fits size q) : (packs size n q).length≤q.length := by
  induction n generalizing q with
  | zero => simp [packs]
  | succ n ih =>
    match q with
    | [] => simp [packs]
    | [b] => simp [packs]
    | b :: c :: q =>
      obtain ⟨hrs,hlen⟩ := h.rest
      simp only [packs,length_cons] at hlen ⊢
      have := ih hrs
      omega

theorem Fits.packs_stable {m : ℕ} (h : Fits size q) (hn : q.length≤n) (hm : q.length ≤ m) :
    packs size n q = packs size m q := by
  induction n generalizing q m with
  | zero =>
    have hq : q = [] := eq_nil_of_length_eq_zero (by omega)
    simp [hq,packs_nil]
  | succ n ih =>
    match m, q with
    | _, [] => simp [packs_nil]
    | 0, b :: q => simp at hm
    | m+1, [b] => simp [packs]
    | m+1, b :: c :: q =>
      obtain ⟨hrs,hlen⟩ := h.rest
      simp only [length_cons] at hlen hn hm
      rw [packs,packs,ih (m := m) hrs (by omega) (by omega)]

theorem Fits.packs_flatten (h : Fits size q) (hn : q.length≤n) :
    (packs size n q).flatten=q.flatten := by
  induction n generalizing q with
  | zero =>
    have hq : q = [] := eq_nil_of_length_eq_zero (by omega)
    simp [hq,packs]
  | succ n ih =>
    match q with
    | [] => simp [packs]
    | [b] => simp [packs]
    | b :: c :: q =>
      obtain ⟨hrs,hlen⟩ := h.rest
      simp only [length_cons] at hlen hn
      rw [packs,flatten_cons,ih hrs (by omega)]
      exact fill_flatten [] (b :: c :: q)

theorem Fits.packs_ne_nil (h : Fits size q) (hne : ∀ b ∈ q, b ≠ []) :
    ∀ d ∈ packs size n q, d ≠ [] := by
  induction n generalizing q with
  | zero => simp [packs]
  | succ n ih =>
    match q with
    | [] => simp [packs]
    | [b] => simpa [packs] using hne
    | b :: c :: q =>
      obtain ⟨pre,hq,hbuf,-⟩ := fill_progress (q := c :: q) (h b (by simp))
      have hmem : ∀ d ∈ (fill size [] (b :: c :: q)).2, d ≠ [] := by
        intro d hd
        apply hne
        rw [hq]
        simp [hd]
      intro d hd
      rw [packs,mem_cons] at hd
      obtain rfl | hd := hd
      · rw [hbuf]
        simp [hne b (by simp)]
      · exact ih h.rest.1 hmem d hd

theorem fill_length_le (h : buf.length ≤ size) : (fill size buf q).1.length ≤ size := by
  induction q generalizing buf with
  | nil => exact h
  | cons b q ih =>
    by_cases hb : buf.length+b.length ≤ size
    · simpa [fill,hb] using ih (by simpa using hb)
    · simpa [fill,hb] using h

theorem packs_size (d : List β) (hd : d ∈ packs size n q) : d.length ≤ size ∨ d ∈ q := by
  induction n generalizing q with
  | zero => simp [packs] at hd
  | succ n ih =>
    match q with
    | [] => simp [packs] at hd
    | [b] => exact .inr (by simpa [packs] using hd)
    | b :: c :: q =>
      rw [packs] at hd
      obtain rfl | hd := mem_cons.mp hd
      · exact .inl (fill_length_le (Nat.zero_le _))
      · obtain ⟨pre,hq,-,-⟩ := @fill_split β size [] (b :: c :: q)
        refine (ih hd).imp_right fun hmem => ?_
        rw [hq]
        exact mem_append_right _ hmem

theorem Fits.mem_packs (h : Fits size q) (hb : b ∈ q) (hlar : size<b.length) (hn : q.length≤n) :
    b ∈ packs size n q := by
  induction n generalizing q with
  | zero =>
    have hq : q = [] := eq_nil_of_length_eq_zero (by omega)
    simp [hq] at hb
  | succ n ih =>
    match q with
    | [] => simp at hb
    | [c] => simpa [packs] using hb
    | c :: d :: q =>
      obtain ⟨hrs,hlen⟩ := h.rest
      obtain ⟨pre,hq,-,hpre⟩ := @fill_split β size [] (c :: d :: q)
      simp only [length_cons] at hlen hn
      rw [hq] at hb
      obtain hb | hb := mem_append.mp hb
      · have := hpre b hb
        omega
      · rw [packs]
        exact mem_cons_of_mem _ (ih hrs hb (by omega))

theorem length_packs_of_not_fits (h : ¬ Fits size q) : (packs size n q).length=n := by
  induction n generalizing q with
  | zero => rfl
  | succ n ih =>
    match q with
    | [] => exact absurd (by simp [Fits]) h
    | [b] => exact absurd (by simp [Fits]) h
    | b :: c :: q =>
      rw [packs,length_cons,ih]
      intro hrs
      obtain ⟨pre,hq,-,hpre⟩ := @fill_split β size [] (b :: c :: q)
      apply h
      intro d hd
      by_cases hnil : (fill size [] (b :: c :: q)).2 = []
      · rw [hq,hnil,append_nil] at hd
        exact hpre d (dropLast_subset _ hd)
      · rw [hq,dropLast_append_of_ne_nil hnil] at hd
        obtain hd | hd := mem_append.mp hd
        · exact hpre d hd
        · exact hrs d hd

theorem nil_mem_packs (h : ¬ Fits size q) : ∃ n, [] ∈ packs size n q := by
  obtain ⟨bad,hbad,hsi⟩ : ∃ bad ∈ q.dropLast, size<bad.length := by simpa [Fits] using h
  clear h
  induction hlen : q.length using Nat.strongRecOn generalizing q with
  | _ len ih =>
    match q with
    | [] => simp at hbad
    | [b] => simp at hbad
    | b :: c :: q =>
      by_cases hb : b.length ≤ size
      · obtain ⟨pre,hq,-,hpre⟩ := fill_progress (q := c :: q) hb
        have hrs : bad ∈ (fill size [] (b :: c :: q)).2.dropLast := by
          have hmem : bad ∈ (c :: q).dropLast := by
            have hne : bad≠b := fun heq => absurd hb (by rw [← heq]; omega)
            simpa [hne] using hbad
          by_cases hnil : (fill size [] (b :: c :: q)).2 = []
          · rw [hnil,append_nil] at hq
            have := hpre bad (hq ▸ dropLast_subset _ hmem)
            omega
          · rw [hq,dropLast_append_of_ne_nil hnil,mem_append] at hmem
            obtain hmem | hmem := hmem
            · have := hpre bad hmem
              omega
            · exact hmem
        have hlt := congrArg List.length hq
        simp only [length_cons,length_append] at hlt hlen
        obtain ⟨n,hn⟩ := ih _ (by omega) hrs rfl
        exact ⟨n+1,by simp [packs,hn]⟩
      · refine ⟨1,?_⟩
        simp [packs,fill_stuck (q := c :: q) (Nat.not_le.mp hb)]

end Packing

end PAMI.Math
