import Mathlib.Algebra.BigOperators.Group.List.Basic
import Mathlib.Algebra.Ring.Nat
import PAMI.Math.ByteMemory

namespace PAMI.Shmem

open PAMI.Math List Nat Option

/-- The sizes of a `FifoPacket`, whose parameters are unsigned, as `Shmem::Packet` asserts them. -/
structure PacketSizes where
  header_size : ℕ
  payload_size : ℕ
  fits : header_size + payload_size < 2 ^ 32
  words : payload_size % 8 = 0

/-- A source segment: the memory from its address on, and its length. -/
structure Iovec where
  iov_base : ℕ → UInt8
  iov_len : ℕ

/-- The copy of the first 8-byte words of a source. -/
@[grind =] def copyWords (src : ℕ → UInt8) (dst : ℕ) : ℕ → (ℕ → UInt8) → ℕ → UInt8
  | 0, mem => mem
  | j + 1, mem => writeBytes (copyWords src dst j mem) (dst + 8 * j) (readBytes src (8 * j) 8)

/-- The words of a segment, its remainder rounded up. -/
def wordCount (len : ℕ) : ℕ := len / 8 + if len % 8 = 0 then 0 else 1

/-- The loop of `writePayload`. Its index, and the number of words of a segment, are 32-bit words. -/
@[grind =] def writeIovecs (iov : List Iovec) : ℕ → ℕ → ℕ → (ℕ → UInt8) → Option (ℕ → UInt8)
  | 0, _, _, _ => none
  | fuel + 1, i, payload, mem =>
    match iov[i]? with
    | none => some mem
    | some v => writeIovecs iov fuel ((i + 1) % 2 ^ 32) (payload + v.iov_len)
        (copyWords v.iov_base payload (wordCount v.iov_len % 2 ^ 32) mem)

/-- `writePayload` of segments into a packet, and the memory after it. -/
def writePayload (p : PacketSizes) (packet : ℕ) (iov : List Iovec) (fuel : ℕ) (mem : ℕ → UInt8) : Option (ℕ → UInt8) :=
  writeIovecs iov fuel 0 (packet + p.header_size) mem

/-- `writePayload` of one contiguous buffer. -/
def writeContiguous (p : PacketSizes) (packet : ℕ) (payload : ℕ → UInt8) (bytes : ℕ) (mem : ℕ → UInt8) : ℕ → UInt8 :=
  copyWords payload (packet + p.header_size) (wordCount bytes) mem

/-- What the segments hold, one behind the other. -/
def contents (iov : List Iovec) : List UInt8 := iov.flatMap fun v => readBytes v.iov_base 0 v.iov_len

/-- Where a segment goes to in the payload, and the length of all. -/
def offset (iov : List Iovec) (k : ℕ) : ℕ := ((iov.take k).map Iovec.iov_len).sum

def totalLength (iov : List Iovec) : ℕ := (iov.map Iovec.iov_len).sum

/-- The payload begins with the contents of the segments, and the memory outside of it is as before. -/
structure Gathered (p : PacketSizes) (packet : ℕ) (iov : List Iovec) (mem mem' : ℕ → UInt8) : Prop where
  payload : readBytes mem' (packet + p.header_size) (totalLength iov) = contents iov
  outside : ∀ a, a < packet + p.header_size ∨ packet + p.header_size + p.payload_size ≤ a → mem' a = mem a

/-- `writePayload` returns, and has gathered the segments, wherever the packet is and whatever was there before. -/
def GathersExactly (p : PacketSizes) (iov : List Iovec) : Prop :=
  ∀ packet mem, ∃ fuel mem', writePayload p packet iov fuel mem = some mem' ∧ Gathered p packet iov mem mem'

/-- Each segment, rounded up to whole words at its place, ends within the payload. -/
def WordsFit (p : PacketSizes) (iov : List Iovec) : Prop :=
  ∀ k v, iov[k]? = some v → offset iov k + 8 * wordCount v.iov_len ≤ p.payload_size

section Words

variable {src : ℕ → UInt8} {dst n a len : ℕ} {mem : ℕ → UInt8}

theorem le_wordCount (len : ℕ) : len ≤ 8*wordCount len ∧ 8*wordCount len < len+8 := by
  rw [wordCount]
  split <;> omega

theorem copyWords_of_outside (h : a<dst ∨ dst+8*n≤a) : copyWords src dst n mem a = mem a := by
  induction n with
  | zero => rfl
  | succ n ih =>
    rw [copyWords,writeBytes_of_outside]
    · apply ih
      omega
    · rw [length_readBytes]
      omega

theorem copyWords_inside (h : len<8*n) : copyWords src dst n mem (dst+len) = src len := by
  induction n with
  | zero => omega
  | succ n ih =>
    rw [copyWords]
    by_cases hlt : len<8*n
    · rw [writeBytes_of_outside (.inl (by omega))]
      exact ih hlt
    · obtain ⟨k,rfl⟩ := Nat.exists_eq_add_of_le (Nat.le_of_not_lt hlt)
      have hk : k<(readBytes src (8*n) 8).length := by
        rw [length_readBytes]
        omega
      rw [← Nat.add_assoc,writeBytes_inside hk]
      simp only [readBytes,getElem_map,getElem_range]

theorem readBytes_copyWords (h : len≤8*n) :
    readBytes (copyWords src dst n mem) dst len = readBytes src 0 len := by
  refine readBytes_congr fun k hk => ?_
  rw [zero_add]
  apply copyWords_inside
  omega

end Words

@[grind =] def writeAll : List Iovec → ℕ → (ℕ → UInt8) → ℕ → UInt8
  | [], _, mem => mem
  | v :: iov, payload, mem => writeAll iov (payload + v.iov_len) (copyWords v.iov_base payload (wordCount v.iov_len) mem)

section Segments

variable {iov : List Iovec} {payload a k : ℕ} {mem : ℕ → UInt8} {v : Iovec}

theorem writeAll_of_lt (h : a<payload) : writeAll iov payload mem a = mem a := by
  induction iov generalizing payload mem with
  | nil => rfl
  | cons v iov ih =>
    rw [writeAll,ih (Nat.lt_add_right _ h)]
    exact copyWords_of_outside (.inl h)

theorem readBytes_writeAll : readBytes (writeAll iov payload mem) payload (totalLength iov) = contents iov := by
  induction iov generalizing payload mem with
  | nil => rfl
  | cons v iov ih =>
    have hfir : readBytes (writeAll (v :: iov) payload mem) payload v.iov_len = readBytes v.iov_base 0 v.iov_len := by
      have hcopy : readBytes (copyWords v.iov_base payload (wordCount v.iov_len) mem) payload v.iov_len = _ :=
        readBytes_copyWords (le_wordCount v.iov_len).1
      rw [writeAll,← hcopy]
      exact readBytes_congr fun k hk => writeAll_of_lt (by omega)
    have hrs : readBytes (writeAll (v :: iov) payload mem) (payload+v.iov_len) (totalLength iov) = contents iov := by
      rw [writeAll]
      exact ih
    rw [totalLength,map_cons,sum_cons,readBytes_add,hfir]
    exact congrArg _ hrs

theorem writeAll_outside (h : ∀ k v, iov[k]? = some v → payload+offset iov k+8*wordCount v.iov_len ≤ a) :
    writeAll iov payload mem a = mem a := by
  induction iov generalizing payload mem with
  | nil => rfl
  | cons v iov ih =>
    rw [writeAll,ih]
    · exact copyWords_of_outside (.inr (h 0 v rfl))
    · intro k w hk
      have hnx := h (k+1) w hk
      rw [offset,take_succ_cons,map_cons,sum_cons] at hnx
      rw [offset]
      omega

theorem writeAll_kept_or_const (iov : List Iovec) (payload a : ℕ) :
    (∀ mem, writeAll iov payload mem a = mem a) ∨ ∃ b, ∀ mem, writeAll iov payload mem a = b := by
  induction iov generalizing payload with
  | nil => exact .inl fun _ => rfl
  | cons v iov ih =>
    cases ih (payload+v.iov_len) with
    | inr hcon =>
      obtain ⟨b,hb⟩ := hcon
      exact .inr ⟨b,fun mem => hb _⟩
    | inl hkp =>
      by_cases h : a<payload ∨ payload+8*wordCount v.iov_len≤a
      · exact .inl fun mem => (hkp _).trans (copyWords_of_outside h)
      · obtain ⟨len,rfl⟩ := Nat.exists_eq_add_of_le (Nat.le_of_not_lt fun hlt => h (.inl hlt))
        exact .inr ⟨v.iov_base len,fun mem => (hkp _).trans (copyWords_inside (by omega))⟩

theorem writeAll_covered (hk : iov[k]? = some v) (hlow : payload+offset iov k ≤ a)
    (hhg : a < payload+offset iov k+8*wordCount v.iov_len) : ∃ b, ∀ mem, writeAll iov payload mem a = b := by
  induction iov generalizing payload k with
  | nil => contradiction
  | cons w iov ih =>
    cases k with
    | zero =>
      obtain rfl := some.inj hk
      rw [offset,take_zero,map_nil,sum_nil] at hlow hhg
      obtain ⟨len,rfl⟩ := Nat.exists_eq_add_of_le hlow
      cases writeAll_kept_or_const iov (payload+w.iov_len) (payload+0+len) with
      | inl hkp => exact ⟨w.iov_base len,fun mem => (hkp _).trans (copyWords_inside (by omega))⟩
      | inr hcon =>
        obtain ⟨b,hb⟩ := hcon
        exact ⟨b,fun mem => hb _⟩
    | succ k =>
      rw [offset,take_succ_cons,map_cons,sum_cons,← add_assoc] at hlow hhg
      obtain ⟨b,hb⟩ := ih hk hlow hhg
      exact ⟨b,fun mem => hb _⟩

theorem offset_le (hk : iov[k]? = some v) : offset iov k+v.iov_len ≤ totalLength iov := by
  have hspl : iov.take k ++ v :: iov.drop (k+1)=iov := by
    obtain ⟨hlt,rfl⟩ := List.getElem?_eq_some_iff.mp hk
    rw [← drop_eq_getElem_cons hlt,take_append_drop]
  rw [totalLength,← hspl,map_append,List.sum_append,map_cons,sum_cons,offset,hspl]
  omega

theorem writeIovecs_cons {fuel i : ℕ} (h : iov[i]? = some v) :
    writeIovecs iov (fuel+1) i payload mem = writeIovecs iov fuel ((i+1)%2^32) (payload+v.iov_len)
      (copyWords v.iov_base payload (wordCount v.iov_len%2^32) mem) := by
  rw [writeIovecs,h]

theorem writeIovecs_end {fuel i : ℕ} (h : iov[i]? = none) :
    writeIovecs iov (fuel+1) i payload mem = some mem := by
  rw [writeIovecs,h]

theorem writeIovecs_mono {fuel i : ℕ} {mem' : ℕ → UInt8} (h : writeIovecs iov fuel i payload mem = some mem') (n : ℕ) :
    writeIovecs iov (fuel+n) i payload mem = some mem' := by
  induction fuel generalizing i payload mem with
  | zero => contradiction
  | succ fuel ih =>
    rw [succ_add]
    cases hget : iov[i]? with
    | none =>
      rw [writeIovecs_end hget] at h ⊢
      exact h
    | some v =>
      rw [writeIovecs_cons hget] at h ⊢
      exact ih h

theorem writeIovecs_eq (hlen : iov.length<2^32) (hsho : totalLength iov < 2^32) {i : ℕ} (hi : i ≤ iov.length)
    {fuel : ℕ} : writeIovecs iov (iov.length-i+fuel+1) i payload mem = some (writeAll (iov.drop i) payload mem) := by
  induction hrs : iov.length-i generalizing i payload mem with
  | zero =>
    have hend : iov.length ≤ i := by omega
    rw [writeIovecs_end (List.getElem?_eq_none hend),drop_eq_nil_of_le hend,writeAll]
  | succ n ih =>
    have hlt : i < iov.length := by omega
    have hget := List.getElem?_eq_getElem hlt
    have hword : wordCount iov[i].iov_len<2^32 := by
      have := offset_le hget
      have := le_wordCount iov[i].iov_len
      omega
    rw [show n+1+fuel+1=n+fuel+1+1 by omega,writeIovecs_cons hget,mod_eq_of_lt (by omega),
      mod_eq_of_lt hword,ih (by omega) (by omega),drop_eq_getElem_cons hlt,writeAll]

theorem writeIovecs_forever (hlen : 2^32 ≤ iov.length) {i : ℕ} (hi : i<2^32) (fuel : ℕ) :
    writeIovecs iov fuel i payload mem = none := by
  induction fuel generalizing i payload mem with
  | zero => rfl
  | succ fuel ih =>
    rw [writeIovecs_cons (List.getElem?_eq_getElem (hi.trans_le hlen))]
    exact ih (mod_lt _ (Nat.two_pow_pos 32))

end Segments

variable {p : PacketSizes} {iov : List Iovec} {packet : ℕ} {mem : ℕ → UInt8}

theorem writePayload_eq (hlen : iov.length<2^32) (hle : totalLength iov ≤ p.payload_size) (fuel : ℕ) :
    writePayload p packet iov (iov.length+fuel+1) mem = some (writeAll iov (packet+p.header_size) mem) := by
  have hsho : totalLength iov<2^32 := by
    have := p.fits
    omega
  exact writeIovecs_eq hlen hsho (zero_le _)

theorem writeContiguous_gathered {payload : ℕ → UInt8} {bytes : ℕ} (hle : bytes ≤ p.payload_size) :
    Gathered p packet [⟨payload, bytes⟩] mem (writeContiguous p packet payload bytes mem) where
  payload := by
    rw [writeContiguous,contents,flatMap_singleton]
    exact readBytes_copyWords (le_wordCount bytes).1
  outside a ha := by
    have hfit : 8*wordCount bytes≤p.payload_size := by
      have := le_wordCount bytes
      have := p.words
      omega
    apply copyWords_of_outside
    omega

theorem writeContiguous_gathered_five : Gathered ⟨16, 8, by decide, rfl⟩ 0 [⟨fun _ => 1, 5⟩] (fun _ => 0)
    (writeContiguous ⟨16, 8, by decide, rfl⟩ 0 (fun _ => 1) 5 fun _ => 0) := writeContiguous_gathered (by decide)

theorem gathers_iff (hle : totalLength iov ≤ p.payload_size) :
    GathersExactly p iov ↔ iov.length < 2 ^ 32 ∧ WordsFit p iov := by
  constructor
  · intro h
    have hlen : iov.length<2 ^ 32 := by
      obtain ⟨fuel,mem',hret,-⟩ := h 0 fun _ => 0
      by_contra hlong
      rw [writePayload,writeIovecs_forever (Nat.le_of_not_lt hlong) (Nat.two_pow_pos 32)] at hret
      contradiction
    refine ⟨hlen,fun k v hk => ?_⟩
    by_contra hbey
    -- the byte behind the payload is overwritten, whatever it was
    have hbef := (offset_le hk).trans hle
    have hwor := le_wordCount v.iov_len
    have hlow : p.header_size + offset iov k ≤ p.header_size + p.payload_size := by omega
    obtain ⟨b,hb⟩ := writeAll_covered hk hlow (by omega)
    obtain ⟨fuel,mem',hret,hgat⟩ := h 0 fun _ => b + 1
    have hsm := hgat.outside (p.header_size + p.payload_size) (.inr (by omega))
    obtain rfl : writeAll iov p.header_size (fun _ => b + 1)=mem' := by
      have hdn : writePayload p 0 iov (iov.length + fuel + 1) (fun _ => b + 1) = _ := writePayload_eq hlen hle fuel
      have hmore := writeIovecs_mono hret (iov.length + 1)
      rw [writePayload] at hdn
      rw [show fuel + (iov.length + 1) = iov.length + fuel + 1 by omega,hdn,Nat.zero_add] at hmore
      exact some.inj hmore
    rw [hb] at hsm
    exact absurd hsm (by simp)
  · rintro ⟨hlen,hfit⟩ packet mem
    refine ⟨_,_,writePayload_eq hlen hle 0,readBytes_writeAll,fun a ha => ?_⟩
    obtain hlt | hbey := ha
    · exact writeAll_of_lt hlt
    · apply writeAll_outside
      intro k v hk
      have := hfit k v hk
      omega

def testPacket : PacketSizes := ⟨32, 96, by omega, rfl⟩

def ones (len : ℕ) : Iovec := ⟨fun _ => 1, len⟩

theorem gathers_iff_aligned : GathersExactly testPacket [ones 8, ones 88] :=
  (gathers_iff (by decide)).mpr ⟨by decide,fun k v hk => by
    match k,hk with
    | 0,hk => obtain rfl := some.inj hk; decide
    | 1,hk => obtain rfl := some.inj hk; decide⟩

/-- The words of the second segment end one byte behind the packet. -/
theorem byte_overwritten : totalLength [ones 1, ones 95] ≤ testPacket.payload_size ∧
    ¬ GathersExactly testPacket [ones 1, ones 95] := by
  refine ⟨by decide,fun h => ?_⟩
  obtain ⟨fuel,mem',hret,hgat⟩ := h 0 fun _ => 0
  have hdn : writePayload testPacket 0 [ones 1,ones 95] ([ones 1,ones 95].length + fuel + 1) (fun _ => 0) = _ :=
    writePayload_eq (by decide) (by decide) fuel
  have hmore := writeIovecs_mono hret 3
  rw [writePayload] at hdn
  have hfuel : fuel + 3 = [ones 1,ones 95].length + fuel + 1 := by
    simp only [length_cons,length_nil]
    omega
  rw [hfuel,hdn] at hmore
  have hsm := hgat.outside 128 (.inr (by decide))
  rw [← some.inj hmore] at hsm
  exact absurd hsm (by decide)

end PAMI.Shmem
