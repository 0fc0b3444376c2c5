import PAMI.Collsel.ResumingRuns

namespace PAMI.Collsel

open Std List

section Nearest

variable {α : Type} {msg_map : MessageSizeMap α} {past m k : ℕ} {a : α} {l : List (ℕ × α)}

/-- The lookup from the iterator of `lower_bound`, before which and from which on the map is split. At the end of the
map `iter->first` reads the number `past`; `none` stands for the list there. -/
def find_nearest_message_size (past msg_size : ℕ) (msg_map : MessageSizeMap α) : Option α :=
  match msg_map.toList.dropWhile (·.1 < msg_size), (msg_map.toList.takeWhile (·.1 < msg_size)).getLast? with
  | [], none => none
  | [], some last => if past = msg_size then none else some last.2
  | (_, here) :: _, none => some here
  | (ub, here) :: _, some (lb, there) =>
    if ub = msg_size then some here else if ub - msg_size ≥ msg_size - lb then some there else some here

/-- The list of the key with the least distance, the smaller one of two. -/
structure Nearest (msg_map : MessageSizeMap α) (m k : ℕ) (a : α) : Prop where
  stored : msg_map[k]? = some a
  least : ∀ k' a', msg_map[k']? = some a' →
    (k - m) + (m - k) < (k' - m) + (m - k') ∨ (k - m) + (m - k) = (k' - m) + (m - k') ∧ k ≤ k'

theorem getElem?_iff_mem : msg_map[k]? = some a ↔ (k, a) ∈ msg_map.toList :=
  ExtTreeMap.mem_toList_iff_getElem?_eq_some.symm

theorem sorted_toList : msg_map.toList.Pairwise fun e e' => e.1<e'.1 :=
  ExtTreeMap.ordered_keys_toList.imp Nat.compare_eq_lt.mp

theorem find_past (hlt : ∀ k a, msg_map[k]? = some a → k < m) : find_nearest_message_size m m msg_map = none := by
  have hall : ∀ e ∈ msg_map.toList, decide (e.1 < m)=true := fun e he => decide_eq_true (hlt _ _ (getElem?_iff_mem.mpr he))
  rw [find_nearest_message_size,dropWhile_eq_nil_iff.mpr hall]
  cases (msg_map.toList.takeWhile (·.1 < m)).getLast? <;> simp

theorem find_nearest (hsto : msg_map[k]? = some a) (hpast : past≤k) :
    ∃ k a, find_nearest_message_size past m msg_map = some a ∧ Nearest msg_map m k a := by
  have hmem := getElem?_iff_mem.mp hsto
  have hsor : msg_map.toList.Pairwise _ := sorted_toList
  have hbef : ∀ e ∈ msg_map.toList.takeWhile (·.1 < m), e.1 < m := fun e he => by simpa using mem_takeWhile_imp he
  have hfrom : ∀ e, (msg_map.toList.dropWhile (·.1 < m)).head? = some e → m≤e.1 := fun e he => by
    simpa [he] using head?_dropWhile_not (fun e : ℕ × α => decide (e.1 < m)) msg_map.toList
  have hmap : ∀ k a, msg_map[k]? = some a ↔
      (k, a) ∈ msg_map.toList.takeWhile (·.1 < m) ++ msg_map.toList.dropWhile (·.1 < m) := by
    intro k a
    rw [takeWhile_append_dropWhile,getElem?_iff_mem]
  rw [← takeWhile_append_dropWhile (p := fun e => decide (e.1 < m)) (l := msg_map.toList)] at hsor hmem
  rw [find_nearest_message_size]
  generalize msg_map.toList.takeWhile (·.1 < m)=before at *
  generalize msg_map.toList.dropWhile (·.1 < m)=rest at *
  obtain rfl | ⟨before,⟨lb,there⟩,rfl⟩ := before.eq_nil_or_concat'
  · cases rest with
    | nil => contradiction
    | cons e rest =>
      have hle := hfrom e rfl
      refine ⟨e.1,e.2,rfl,(hmap _ _).mpr (by simp),fun k' a' hk => ?_⟩
      have hk : (k', a') ∈ e :: rest := by simpa using (hmap _ _).mp hk
      obtain heq | hk := mem_cons.mp hk
      · rw [← heq]
        exact .inr ⟨rfl,le_rfl⟩
      · have hlt := rel_of_pairwise_cons hsor hk
        simp only at hlt
        omega
  · have hlb : lb < m := hbef (lb, there) (by simp)
    have hup : ∀ k' a', (k', a') ∈ before → k'<lb := fun k' a' hk =>
      (pairwise_append.mp (pairwise_append.mp hsor).1).2.2 _ hk _ (mem_singleton_self _)
    rw [getLast?_concat]
    cases rest with
    | nil =>
      have hne : past≠m := by
        rintro rfl
        have := hbef (k, a) (by simpa using hmem)
        omega
      refine ⟨lb,there,if_neg hne,(hmap _ _).mpr (by simp),fun k' a' hk => ?_⟩
      have hk : (k', a') ∈ before ∨ k'=lb ∧ a'=there := by simpa using (hmap _ _).mp hk
      obtain hk | ⟨rfl,-⟩ := hk
      · have := hup k' a' hk
        omega
      · omega
    | cons e rest =>
      have hle := hfrom e rfl
      have hcas : ∀ k' a', msg_map[k']? = some a' → k'≤lb ∨ e.1≤k' := by
        intro k' a' hk
        have hk := (hmap _ _).mp hk
        simp only [mem_append,mem_cons,Prod.mk.injEq,not_mem_nil,or_false] at hk
        obtain (hk | hk) | rfl | hk := hk
        · exact .inl (hup k' a' hk).le
        · exact .inl hk.1.le
        · exact .inr le_rfl
        · exact .inr (rel_of_pairwise_cons (pairwise_append.mp hsor).2.1 hk).le
      by_cases hnear : e.1≠m ∧ e.1-m ≥ m-lb
      · refine ⟨lb,there,by simp [hnear],(hmap _ _).mpr (by simp),fun k' a' hk => ?_⟩
        rcases hcas k' a' hk with hlo | hhi
        · rw [Nat.sub_eq_zero_of_le hlb.le,Nat.sub_eq_zero_of_le (hlo.trans hlb.le)]
          omega
        · rw [Nat.sub_eq_zero_of_le hlb.le,Nat.sub_eq_zero_of_le (hle.trans hhi)]
          omega
      · have hfou : (if e.1=m then some e.2 else if e.1-m ≥ m-lb then some there else some e.2)=some e.2 := by
          rw [not_and] at hnear
          by_cases heq : e.1=m
          · rw [if_pos heq]
          · rw [if_neg heq,if_neg (hnear heq)]
        refine ⟨e.1,e.2,hfou,(hmap _ _).mpr (by simp),fun k' a' hk => ?_⟩
        rcases hcas k' a' hk with hlo | hhi
        · rw [Nat.sub_eq_zero_of_le hle,Nat.sub_eq_zero_of_le (hlo.trans hlb.le)]
          omega
        · rw [Nat.sub_eq_zero_of_le hle,Nat.sub_eq_zero_of_le (hle.trans hhi)]
          omega

end Nearest

section Compression

variable {α : Type} {measured : List (ℕ × α)} {f : ℕ → Option α} {last : ℕ × α} {s : ℕ} {L : α}

/-- What the map holds of the sizes measured so far: where two of its entries, or an entry and the last list, have the
list of a size and another one, there is an entry with the list of that size on the way. -/
structure Compressed (measured : List (ℕ × α)) (f : ℕ → Option α) (last : ℕ × α) : Prop where
  mem : last ∈ measured
  le : ∀ x ∈ measured, x.1 ≤ last.1
  unique : ∀ x ∈ measured, ∀ y ∈ measured, x.1 = y.1 → x = y
  stored : ∀ k a, f k = some a → (k, a) ∈ measured
  between : ∀ x ∈ measured, ∀ e : ℕ × α, f e.1 = some e.2 ∨ e = last → e.2 ≠ x.2 →
    ∃ k, f k = some x.2 ∧ (e.1 < k ∧ k ≤ x.1 ∨ x.1 ≤ k ∧ k < e.1)

/-- The map with one more entry. -/
def put (f : ℕ → Option α) (e : ℕ × α) (k : ℕ) : Option α := if e.1 = k then some e.2 else f k

theorem Compressed.put_last (h : Compressed measured f last) : Compressed measured (put f last) last := by
  have hsm : ∀ k, f k≠none → put f last k = f k := by
    intro k hk
    obtain ⟨a,ha⟩ := Option.ne_none_iff_exists'.mp hk
    rw [put,ha]
    split
    case isTrue heq => rw [h.unique _ h.mem _ (h.stored k a ha) heq]
    case isFalse => rfl
  refine ⟨h.mem,h.le,h.unique,fun k a hk => ?_,fun x hx e he hne => ?_⟩
  · rw [put] at hk
    split at hk
    case isTrue heq =>
      obtain rfl := Option.some.inj hk
      exact heq ▸ h.mem
    case isFalse => exact h.stored k a hk
  · have hold : f e.1 = some e.2 ∨ e=last := by
      rw [put] at he
      grind
    obtain ⟨k,hk,hbet⟩ := h.between x hx e hold hne
    exact ⟨k,(hsm k (by simp [hk])).trans hk,hbet⟩

theorem Compressed.extend (h : Compressed measured f last) (hlt : last.1 < s) (hsm : last.2=L) :
    Compressed (measured ++ [(s, L)]) f (s, L) := by
  subst hsm
  have hle := h.le
  refine ⟨by simp,fun x hx => ?_,fun x hx y hy heq => ?_,fun k a hk => by simp [h.stored k a hk],
    fun x hx e he hne => ?_⟩
  · grind
  · have := h.unique x
    grind
  · have hkeys : ∀ k a, f k = some a → k≤last.1 := fun k a hk => hle _ (h.stored k a hk)
    obtain hx | rfl : x ∈ measured ∨ x=(s, last.2) := by simpa using hx
    · have hold : e.2≠x.2 → ∃ k, f k = some x.2 ∧ (e.1<k ∧ k≤x.1 ∨ x.1≤k ∧ k<e.1) := by
        obtain he | rfl := he
        · exact h.between x hx e (.inl he)
        · intro hne
          obtain ⟨k,hk,hbet⟩ := h.between x hx last (.inr rfl) hne
          have := hle x hx
          exact ⟨k,hk,by omega⟩
      exact hold hne
    · obtain he | rfl := he
      · obtain ⟨k,hk,hbet⟩ := h.between last h.mem e (.inl he) hne
        have := hkeys e.1 e.2 he
        have := hkeys k _ hk
        exact ⟨k,hk,by omega⟩
      · exact absurd rfl hne

theorem Compressed.change (h : Compressed measured f last) (hlt : last.1 < s) (hla : f last.1 = some last.2) :
    Compressed (measured ++ [(s, L)]) (put f (s, L)) (s, L) := by
  have hle := h.le
  have hkeys : ∀ k a, f k = some a → k≤last.1 := fun k a hk => hle _ (h.stored k a hk)
  have hnew : put f (s, L) s = some L := if_pos rfl
  have hold : ∀ k, k≤last.1 → put f (s, L) k = f k := fun k hk => if_neg (by omega)
  refine ⟨by simp,fun x hx => ?_,fun x hx y hy heq => ?_,fun k a hk => ?_,fun x hx e he hne => ?_⟩
  · grind
  · have := h.unique x
    grind
  · have := h.stored k
    grind [put]
  · obtain hx | rfl : x ∈ measured ∨ x=(s, L) := by simpa using hx
    · have hxle := hle x hx
      obtain rfl | he : e=(s, L) ∨ f e.1 = some e.2 := by grind [put]
      · by_cases hcur : last.2=x.2
        · exact ⟨last.1,by rw [hold _ le_rfl,hla,hcur],by omega⟩
        · obtain ⟨k,hk,hbet⟩ := h.between x hx last (.inr rfl) hcur
          exact ⟨k,(hold k (hkeys _ _ hk)).trans hk,by omega⟩
      · obtain ⟨k,hk,hbet⟩ := h.between x hx e (.inl he) hne
        exact ⟨k,(hold k (hkeys _ _ hk)).trans hk,hbet⟩
    · refine ⟨s,hnew,?_⟩
      obtain rfl | he : e=(s, L) ∨ f e.1 = some e.2 := by grind [put]
      · exact absurd rfl hne
      · have := hkeys _ _ he
        omega

end Compression

section Messages

variable (p g c past : ℕ) {measured : List (ℕ × Text)} {d : Advisor} {last : ℕ × Text}

/-- The rounds of the loop over the message sizes, with the list that was measured for each. -/
def messageLoop (measured : List (ℕ × Text)) (d : Advisor) : Option Advisor :=
  measured.foldlM (fun d e => d.record_list ⟨p, g, c, e.1⟩ e.2) d

/-- Each size has its list, and any other one the list of the nearest key. -/
structure KeepsEvery (measured : List (ℕ × Text)) (msg_map : MessageSizeMap Text) : Prop where
  kept : ∀ e ∈ measured, find_nearest_message_size past e.1 msg_map = some e.2
  nearest : ∀ m, m ∉ measured.map Prod.fst →
    ∃ k a, find_nearest_message_size past m msg_map = some a ∧ Nearest msg_map m k a

variable {p g c past}

structure Recorded (p g c : ℕ) (measured : List (ℕ × Text)) (d : Advisor) (last : ℕ × Text) :
    Prop where
  currAlgoList : d.currAlgoList = some last.2
  last_size : d.last_size = last.1
  compressed : Compressed measured (selected d.ppn_map p g c) last

theorem selected_put {store : GeometryShapeMap Text} (e : ℕ × Text) :
    selected (assign store p g c e.1 e.2) p g c = put (selected store p g c) e := by
  funext k
  simp [selected_assign,put]

theorem Recorded.record (h : Recorded p g c measured d last) {e : ℕ × Text} (hlt : last.1<e.1) :
    Recorded p g c (measured ++ [e]) (d.record ⟨p,g,c,e.1⟩ e.2) e := by
  simp only [Advisor.record,h.currAlgoList,h.last_size]
  by_cases hsm : last.2=e.2
  · simp only [hsm,ne_eq,not_true_eq_false,if_false]
    exact ⟨h.currAlgoList.trans (congrArg some hsm),rfl,h.compressed.extend hlt hsm⟩
  · simp only [hsm,ne_eq,not_false_eq_true,if_true]
    refine ⟨rfl,rfl,?_⟩
    rw [selected_put,selected_put]
    exact h.compressed.put_last.change hlt (if_pos rfl)

theorem messageLoop_cons {e : ℕ × Text} : messageLoop p g c (e :: measured) d =
    (d.record_list ⟨p,g,c,e.1⟩ e.2).bind (messageLoop p g c measured) :=
  foldlM_cons ..

theorem record_list_eq_some {d' : Advisor} {b : Configuration} {tempAlgoList : Text} : d.record_list b tempAlgoList = some d' ↔
    tempAlgoList.length<COLLSEL_MAX_ALGO*2 ∧ d.record b tempAlgoList = d' :=
  Option.ite_none_right_eq_some.trans (and_congr_right' Option.some_inj)

theorem Recorded.loop (h : Recorded p g c measured d last) {rest : List (ℕ × Text)}
    (hsor : ((last :: rest).map Prod.fst).Pairwise (· < ·)) (hfit : ∀ e ∈ rest, e.2.length<COLLSEL_MAX_ALGO*2) :
    ∃ d' last', messageLoop p g c rest d = some d' ∧ Recorded p g c (measured ++ rest) d' last' := by
  induction rest generalizing measured d last with
  | nil => exact ⟨d,last,rfl,by rwa [append_nil]⟩
  | cons e rest ih =>
    obtain ⟨hla,hrs⟩ := pairwise_cons.mp hsor
    obtain ⟨he,hfit⟩ := forall_mem_cons.mp hfit
    obtain ⟨d',last',hloop,hrec⟩ := ih (h.record (hla e.1 mem_cons_self)) hrs hfit
    refine ⟨d',last',?_,by rwa [append_assoc,singleton_append] at hrec⟩
    rw [messageLoop_cons,record_list_eq_some.mpr ⟨he,rfl⟩]
    exact hloop

theorem Compressed.nearest {f : ℕ → Option Text} {msg_map : MessageSizeMap Text} (h : Compressed measured f last)
    (hmap : ∀ k, msg_map[k]? = f k) {x : ℕ × Text} (hx : x ∈ measured) {k : ℕ} {a : Text}
    (hnear : Nearest msg_map x.1 k a) : a=x.2 := by
  by_contra hne
  obtain ⟨k',hk',hbet⟩ := h.between x hx (k, a) (.inl ((hmap k).symm.trans hnear.stored)) hne
  have := hnear.least k' x.2 ((hmap k').trans hk')
  simp only at hbet
  omega

variable (past) in
/-- After the last message size. -/
theorem Recorded.messages_done (h : Recorded p g c measured d last) (P : Platform) (m : Measurement) :
    ∃ d' msg_map, d.step P m (.messages_done p g c) = some d' ∧ messages d'.ppn_map p g c = some msg_map ∧
      (KeepsEvery past measured msg_map ↔ ∃ e ∈ measured, past≤e.1) := by
  have hdn := h.compressed.put_last
  refine ⟨_,_,by rw [Advisor.step,h.currAlgoList],(messages_assign ..).trans (if_pos ⟨rfl,rfl,rfl⟩),?_⟩
  rw [h.last_size]
  generalize hmsg : ((messages _ p g c).getD ∅).insert last.1 last.2=msg_map
  have hmap : ∀ k, msg_map[k]? = put (selected d.ppn_map p g c) last k := by
    intro k
    rw [← hmsg,bind_getElem?_insert,put,selected]
  have hla : msg_map[last.1]? = some last.2 := (hmap _).trans (if_pos rfl)
  constructor
  · intro h
    by_contra! hpast
    have hkey : past ∉ measured.map Prod.fst := by
      rw [mem_map]
      rintro ⟨e,he,rfl⟩
      exact absurd (hpast e he) (lt_irrefl _)
    obtain ⟨k,a,hfou,-⟩ := h.nearest past hkey
    rw [find_past fun k a hk => hpast _ (hdn.stored k a ((hmap k).symm.trans hk))] at hfou
    contradiction
  · rintro ⟨e,he,hpast⟩
    have hfind (m : ℕ) := find_nearest (m := m) hla (hpast.trans (hdn.le e he))
    refine ⟨fun x hx => ?_,fun m _ => hfind m⟩
    obtain ⟨k,a,hfou,hnear⟩ := hfind x.1
    rw [hfou,hdn.nearest hmap hx hnear]

/-- Nothing is recorded yet for the broadcast. -/
def broadcastStart : Advisor := Advisor.start (fun _ => ⟨[], 0, ⟨0, 0, 0⟩⟩) fun _ => none

end Messages

end PAMI.Collsel
