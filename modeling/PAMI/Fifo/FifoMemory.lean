import PAMI.Math.ByteMemory

namespace PAMI.Fifo

open PAMI.Math List

/-- A `T_Packet`, with what its constructor makes of the bytes of the object. -/
structure PacketType where
  size : ℕ
  construct : List (BitVec 8) → List (BitVec 8)
  length_construct : ∀ x, (construct x).length = x.length

/-- The shared memory, and the bounds of the counter of a fifo. -/
structure FifoMemory where
  bytes : ℕ → BitVec 8
  lower : ℕ
  upper : ℕ

namespace FifoMemory

variable (T : PacketType) (size memory : ℕ)

/-- A `size_t` that is zero. -/
def zeroWord : List (BitVec 8) := List.replicate 8 0

def fifo_memory_size : ℕ := T.size * size + 8 * 2

/-- The address of `packet[i]`. -/
def packet (i : ℕ) : ℕ := memory + T.size * i

/-- The address of `active[i]` in `packet_initialize`. -/
def active (i : ℕ) : ℕ := packet T memory size + 8 * i

def initializePacket (m : FifoMemory) (i : ℕ) : FifoMemory :=
  let p := packet T memory i
  let constructed := writeBytes m.bytes p (T.construct (readBytes m.bytes p T.size))
  { m with bytes := writeBytes constructed (active T size memory i) zeroWord, upper := m.upper + 1 }

def packet_initialize (m : FifoMemory) : FifoMemory :=
  (List.range size).foldl (initializePacket T size memory) { m with lower := 0, upper := 0 }

/-- `initialize_impl` in the first process, whose memory for the flags is cleared by `memalign`. -/
def initialize_impl (available flags : ℕ) (m : FifoMemory) : Option FifoMemory :=
  if available < fifo_memory_size T size then none
  else
    let cleared := { m with bytes := writeBytes m.bytes flags (List.replicate size 0) }
    let m' := packet_initialize T size memory cleared
    some { m' with bytes := writeBytes m'.bytes (packet T memory size) zeroWord }

/-- Two pieces of memory, given by address and length. -/
def Apart (a len b len' : ℕ) : Prop := a + len ≤ b ∨ b + len' ≤ a

/-- What an initialisation does to the memory, of which the fifo was given two pieces. -/
structure Initialises (flags : ℕ) (m m' : FifoMemory) : Prop where
  inside : ∀ p, Apart p 1 memory (fifo_memory_size T size) → ( packet_initialize T size memory m).bytes p = m.bytes p
  cleared : readBytes m'.bytes flags size = List.replicate size 0
  head : readBytes m'.bytes (packet T memory size) 8 = zeroWord
  neighbour : ∀ other, Apart other (fifo_memory_size T size) memory (fifo_memory_size T size) →
    Apart other (fifo_memory_size T size) flags size →
    ∀ i < size, readBytes m'.bytes (packet T other i) T.size = readBytes m.bytes (packet T other i) T.size

def StaysInMemory : Prop := ∀ memory available flags m m', Apart flags size memory (fifo_memory_size T size) →
  initialize_impl T size memory available flags m = some m' → Initialises T size memory flags m m'

variable {T size memory} {m m' : FifoMemory} {flags p n : ℕ}

@[simp] theorem length_zeroWord : zeroWord.length=8 := rfl

theorem packet_mono {M i j : ℕ} (h : i<j) : packet T M i+T.size ≤ packet T M j := by
  have hmul := Nat.mul_le_mul_left T.size h
  rw [Nat.mul_succ] at hmul
  simp only [packet]
  omega

theorem bytes_succ (b : FifoMemory) (hb : (List.range n).foldl (initializePacket T size memory) m = b) :
    ((List.range (n+1)).foldl (initializePacket T size memory) m).bytes =
      writeBytes (writeBytes b.bytes (packet T memory n) (T.construct (readBytes b.bytes (packet T memory n) T.size)))
        (active T size memory n) zeroWord := by
  rw [range_succ,foldl_append,foldl_cons,foldl_nil,hb]
  rfl

theorem foldl_frame (hn : n ≤ size) (hpac : p < memory ∨ packet T memory size ≤ p)
    (hfla : p < active T size memory 0 ∨ active T size memory n ≤ p) :
    ((List.range n).foldl (initializePacket T size memory) m).bytes p = m.bytes p := by
  induction n with
  | zero => rfl
  | succ n ih =>
    have hla := packet_mono (T := T) (M := memory) hn
    have hfir : memory≤packet T memory n := Nat.le_add_right _ _
    simp only [active] at hfla ih
    rw [bytes_succ _ rfl,writeBytes_of_outside,writeBytes_of_outside,ih (by omega) (by omega)]
    · rw [T.length_construct,length_readBytes]
      omega
    · rw [length_zeroWord,active]
      omega

theorem foldl_flags (hn : n ≤ size) (hp : active T size memory 0 ≤ p ∧ p < active T size memory n) :
    ((List.range n).foldl (initializePacket T size memory) m).bytes p = 0 := by
  induction n with
  | zero => omega
  | succ n ih =>
    have hla := packet_mono (T := T) (M := memory) hn
    simp only [active] at hp ih
    rw [bytes_succ _ rfl]
    by_cases hlt : p<packet T memory size+8*n
    · rw [writeBytes_of_outside,writeBytes_of_outside,ih (by omega) ⟨hp.1,hlt⟩]
      · rw [T.length_construct,length_readBytes]
        omega
      · rw [active]
        omega
    · obtain ⟨k,rfl⟩ := Nat.exists_eq_add_of_le (Nat.le_of_not_lt hlt)
      have hk : k<zeroWord.length := by
        rw [length_zeroWord]
        omega
      rw [← active,writeBytes_inside hk]
      exact getElem_replicate _

theorem initialize_eq {available : ℕ} (h : initialize_impl T size memory available flags m = some m') :
    m'.bytes = writeBytes ( packet_initialize T size memory
      { m with bytes := writeBytes m.bytes flags (List.replicate size 0) }).bytes (packet T memory size) zeroWord := by
  rw [initialize_impl,Option.ite_none_left_eq_some] at h
  rw [← Option.some.inj h.2]

theorem packet_initialize_frame (hsi : size≤2) (hp : Apart p 1 memory (fifo_memory_size T size)) :
    ( packet_initialize T size memory m).bytes p = m.bytes p := by
  apply foldl_frame le_rfl
  all_goals
    simp only [Apart,fifo_memory_size,active,packet] at hp ⊢
    omega

theorem staysInMemory_iff : StaysInMemory T size ↔ size ≤ 2 := by
  constructor
  · intro h
    by_contra hsi
    -- The flag of the third slot lies right behind the memory of the fifo.
    have hine := (h 0 (fifo_memory_size T size) (fifo_memory_size T size) ⟨fun _ => 1,0,0⟩ _ (.inr (by omega))
      (if_neg (by omega))).inside (active T size 0 2) (.inr (by simp [active,packet,fifo_memory_size]))
    rw [ packet_initialize,foldl_flags le_rfl] at hine
    · simp at hine
    · simp only [active]
      omega
  · intro hsi memory available flags m m' hapa hin
    have hbyt := initialize_eq hin
    have hrs {p : ℕ} (hp : Apart p 1 memory (fifo_memory_size T size)) :
        m'.bytes p = writeBytes m.bytes flags (List.replicate size 0) p := by
      rw [hbyt,writeBytes_of_outside,packet_initialize_frame hsi hp]
      simp only [Apart,fifo_memory_size,packet,length_zeroWord] at hp ⊢
      omega
    refine ⟨fun p hp => packet_initialize_frame hsi hp,?_,?_,?_⟩
    · have hfla : readBytes m'.bytes flags size =
          readBytes (writeBytes m.bytes flags (List.replicate size 0)) flags size := by
        apply readBytes_congr
        intro k hk
        apply hrs
        simp only [Apart] at hapa ⊢
        omega
      have hse (x) : readBytes (writeBytes m.bytes flags x) flags x.length=x := readBytes_writeBytes_self
      simpa [hfla] using hse (List.replicate size 0)
    · rw [hbyt]
      exact readBytes_writeBytes_self
    · intro other hoth hfla i hi
      apply readBytes_congr
      intro k hk
      have hsl := packet_mono (T := T) (M := other) hi
      rw [hrs,writeBytes_of_outside]
      all_goals
        simp only [Apart,fifo_memory_size,packet,length_replicate] at hoth hfla hsl ⊢
        omega

theorem not_staysInMemory : ¬ StaysInMemory ⟨160, id, fun _ => rfl⟩ 128 := by
  intro h
  have hine := (h 0 20496 20496 ⟨fun _ => 1,0,0⟩ _ (.inr le_rfl) (if_neg (lt_irrefl _))).inside 20496 (.inr le_rfl)
  rw [ packet_initialize,foldl_flags le_rfl ⟨by decide,by decide⟩] at hine
  exact absurd hine (by decide)

end FifoMemory

end PAMI.Fifo
