import PAMI.Collsel.TuningFile

namespace PAMI.Collsel

open Std Option

variable {α : Type}

def geometries (store : GeometryShapeMap α) (ppn geo_size : ℕ) : Option (CollectivesMap α) :=
  store[ppn]?.bind fun m => m[geo_size]?

def messages (store : GeometryShapeMap α) (ppn geo_size coll_id : ℕ) : Option (MessageSizeMap α) :=
  (geometries store ppn geo_size).bind fun m => m[coll_id]?

/-- The list that is selected for a message size. -/
def selected (store : GeometryShapeMap α) (ppn geo_size coll_id size : ℕ) : Option α :=
  (messages store ppn geo_size coll_id).bind fun m => m[size]?

variable {store : GeometryShapeMap α} {ppn geo_size coll_id size : ℕ} {a : α}

theorem getElem?_insert_eq {β : Type} (m : ExtTreeMap ℕ β) (k k' : ℕ) (v : β) :
    (m.insert k v)[k']? = if k=k' then some v else m[k']? := by
  rw [ExtTreeMap.getElem?_insert]
  exact if_congr Nat.compare_eq_eq rfl rfl

theorem ppn_assign (p : ℕ) : ((assign store ppn geo_size coll_id size a)[p]?).isSome =
    (decide (ppn=p) || (store[p]?).isSome) := by
  rw [assign,getElem?_insert_eq]
  split
  case isTrue h => rw [decide_eq_true h,isSome_some,Bool.true_or]
  case isFalse h => rw [decide_eq_false h,Bool.false_or]

theorem getElem?_getD_empty {β : Type} (o : Option (ExtTreeMap ℕ β)) (k : ℕ) :
    (o.getD ∅)[k]? = o.bind fun m => m[k]? := by
  cases o with
  | none => exact ExtTreeMap.getElem?_empty
  | some m => rfl

theorem bind_getElem?_insert {β : Type} (o : Option (ExtTreeMap ℕ β)) (k k' : ℕ) (v : β) :
    ((o.getD ∅).insert k v)[k']? = if k=k' then some v else o.bind fun m => m[k']? := by
  rw [getElem?_insert_eq,getElem?_getD_empty]

theorem geometries_assign (p g : ℕ) : geometries (assign store ppn geo_size coll_id size a) p g =
    if ppn=p ∧ geo_size=g then
      some (((geometries store p g).getD ∅).insert coll_id (((messages store p g coll_id).getD ∅).insert size a))
    else geometries store p g := by
  have hgeo : (store.getD ppn ∅).getD geo_size ∅ = (geometries store ppn geo_size).getD ∅ := by
    rw [ExtTreeMap.getD_eq_getD_getElem?,ExtTreeMap.getD_eq_getD_getElem?,getElem?_getD_empty]
    rfl
  have hcoll : ((store.getD ppn ∅).getD geo_size ∅).getD coll_id ∅ = (messages store ppn geo_size coll_id).getD ∅ := by
    rw [hgeo,ExtTreeMap.getD_eq_getD_getElem?,getElem?_getD_empty]
    rfl
  rw [assign,geometries,getElem?_insert_eq,hcoll,hgeo]
  by_cases hp : ppn=p
  · subst hp
    rw [if_pos rfl,bind_some,ExtTreeMap.getD_eq_getD_getElem?,bind_getElem?_insert]
    by_cases hg : geo_size=g
    · subst hg
      rw [if_pos rfl,if_pos ⟨rfl,rfl⟩]
    · rw [if_neg hg,if_neg fun h => hg h.2,geometries]
  · rw [if_neg hp,if_neg fun h => hp h.1,geometries]

theorem messages_assign (p g c : ℕ) : messages (assign store ppn geo_size coll_id size a) p g c =
    if ppn=p ∧ geo_size=g ∧ coll_id=c then some (((messages store p g c).getD ∅).insert size a)
    else messages store p g c := by
  rw [messages,geometries_assign]
  by_cases hpg : ppn=p ∧ geo_size=g
  · rw [if_pos hpg,bind_some,bind_getElem?_insert]
    by_cases hc : coll_id=c
    · subst hc
      rw [if_pos rfl,if_pos ⟨hpg.1,hpg.2,rfl⟩]
    · rw [if_neg hc,if_neg fun h => hc h.2.2,messages]
  · rw [if_neg hpg,if_neg fun h => hpg ⟨h.1,h.2.1⟩,messages]

theorem selected_assign (p g c s : ℕ) : selected (assign store ppn geo_size coll_id size a) p g c s =
    if ppn=p ∧ geo_size=g ∧ coll_id=c ∧ size=s then some a else selected store p g c s := by
  rw [selected,messages_assign]
  by_cases hpgc : ppn=p ∧ geo_size=g ∧ coll_id=c
  · rw [if_pos hpgc,bind_some,bind_getElem?_insert]
    by_cases hs : size=s
    · rw [if_pos hs,if_pos ⟨hpgc.1,hpgc.2.1,hpgc.2.2,hs⟩]
    · rw [if_neg hs,if_neg fun h => hs h.2.2.2,selected]
  · rw [if_neg hpgc,if_neg fun h => hpgc ⟨h.1,h.2.1,h.2.2.1⟩,selected]

/-- Each key has a list under it. -/
structure Full (store : GeometryShapeMap α) : Prop where
  ppn : ∀ p, (store[p]?).isSome = true → ∃ g c s, (selected store p g c s).isSome = true
  geometries : ∀ p g, (geometries store p g).isSome = true → ∃ c s, (selected store p g c s).isSome = true
  messages : ∀ p g c, (messages store p g c).isSome = true → ∃ s, (selected store p g c s).isSome = true

theorem full_empty : Full (∅ : GeometryShapeMap α) := by
  have hnn : ∀ p : ℕ, ((∅ : GeometryShapeMap α)[p]?).isSome=false := by
    intro p
    rw [ExtTreeMap.getElem?_empty,isSome_none]
  constructor
  · intro p h
    exact absurd ((hnn p).symm.trans h) Bool.false_ne_true
  · intro p g h
    rw [Collsel.geometries,ExtTreeMap.getElem?_empty] at h
    contradiction
  · intro p g c h
    rw [Collsel.messages,Collsel.geometries,ExtTreeMap.getElem?_empty] at h
    contradiction

theorem selected_assign_self : selected (assign store ppn geo_size coll_id size a) ppn geo_size coll_id size = some a := by
  rw [selected_assign,if_pos ⟨rfl,rfl,rfl,rfl⟩]

theorem selected_assign_mono {p g c s : ℕ} (h : (selected store p g c s).isSome=true) :
    (selected (assign store ppn geo_size coll_id size a) p g c s).isSome=true := by
  rw [selected_assign]
  split
  · rfl
  · exact h

theorem Full.assign (h : Full store) : Full (assign store ppn geo_size coll_id size a) := by
  have hse : (selected (Collsel.assign store ppn geo_size coll_id size a) ppn geo_size coll_id size).isSome=true := by
    rw [selected_assign_self,isSome_some]
  constructor
  · intro p hp
    rw [ppn_assign,Bool.or_eq_true,decide_eq_true_iff] at hp
    cases hp with
    | inl hp => exact ⟨geo_size,coll_id,size,hp ▸ hse⟩
    | inr hp =>
      obtain ⟨g,c,s,hs⟩ := h.ppn p hp
      exact ⟨g,c,s,selected_assign_mono hs⟩
  · intro p g hpg
    rw [geometries_assign] at hpg
    split at hpg
    · rename_i heq
      obtain ⟨rfl,rfl⟩ := heq
      exact ⟨coll_id,size,hse⟩
    · obtain ⟨c,s,hs⟩ := h.geometries p g hpg
      exact ⟨c,s,selected_assign_mono hs⟩
  · intro p g c hpgc
    rw [messages_assign] at hpgc
    split at hpgc
    · rename_i heq
      obtain ⟨rfl,rfl,rfl⟩ := heq
      exact ⟨size,hse⟩
    · obtain ⟨s,hs⟩ := h.messages p g c hpgc
      exact ⟨s,selected_assign_mono hs⟩

theorem selected_eq_some {p g c s : ℕ} (h : selected store p g c s = some a) :
    ∃ e ∈ store.toList, e.1=p ∧ ∃ e' ∈ e.2.toList, e'.1=g ∧ ∃ e'' ∈ e'.2.toList, e''.1=c ∧
      (s, a) ∈ e''.2.toList := by
  obtain ⟨m,hm,ha⟩ := bind_eq_some_iff.mp h
  obtain ⟨m',hm',hm⟩ := bind_eq_some_iff.mp hm
  obtain ⟨m'',hm'',hm'⟩ := bind_eq_some_iff.mp hm'
  exact ⟨(p, m''),ExtTreeMap.mem_toList_iff_getElem?_eq_some.mpr hm'',rfl,
    (g, m'),ExtTreeMap.mem_toList_iff_getElem?_eq_some.mpr hm',rfl,
    (c, m),ExtTreeMap.mem_toList_iff_getElem?_eq_some.mpr hm,rfl,
    ExtTreeMap.mem_toList_iff_getElem?_eq_some.mpr ha⟩

theorem isSome_of_isSome_bind {β γ : Type} {o : Option β} {f : β → Option γ} (h : (o.bind f).isSome=true) :
    o.isSome=true := by
  cases o with
  | none => contradiction
  | some _ => rfl

end PAMI.Collsel
