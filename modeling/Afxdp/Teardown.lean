import Afxdp.Handles
import Afxdp.Lib.Refcount

/-!
# The order of the teardown

The objects behind the `Arc`s are reference-counted cells in the sense of `Afxdp.Refcount`: the
handles are the references from outside, and the drop of an `Arc` releases a reference
(`Obj.drop_released`), because every destructor makes its call before the fields are dropped, and
no area was ever made with `MAP_FAILED`. So whatever the order in which handles are cloned, given
to constructors and dropped, every object is deleted after all that were made over it, once, and
none is left when the last handle is gone (`run_teardown`).
-/

namespace Afxdp.Lifetime

open Refcount (Counted Released)
open Run (run run_invariant)

/-! ## The log -/

/-- The object that was created. -/
def Event.created? : Event → Option Obj
  | .created o => some o
  | _ => none

/-- The object that was deleted. -/
def Event.deleted? : Event → Option Obj
  | .deleted o => some o
  | _ => none

/-- The objects that were created. -/
def creations (log : List Event) : Finset Obj := (log.filterMap Event.created?).toFinset

/-- The objects that were deleted, in order. -/
def deletions (log : List Event) : List Obj := log.filterMap Event.deleted?

theorem mem_creations {log : List Event} {o : Obj} : o ∈ creations log ↔ .created o ∈ log := by
  rw [creations, List.mem_toFinset, List.mem_filterMap]
  constructor
  · rintro ⟨e, he, hc⟩
    cases e <;> cases hc
    exact he
  · intro h
    exact ⟨_, h, rfl⟩

theorem mem_deletions {log : List Event} {o : Obj} : o ∈ deletions log ↔ .deleted o ∈ log := by
  rw [deletions, List.mem_filterMap]
  constructor
  · rintro ⟨e, he, hd⟩
    cases e <;> cases hd
    exact he
  · intro h
    exact ⟨_, h, rfl⟩

theorem deletions_append (log log' : List Event) :
    deletions (log ++ log') = deletions log ++ deletions log' := List.filterMap_append

@[simp] theorem deletions_map_deleted (d : List Obj) : deletions (d.map .deleted) = d := by
  rw [deletions, List.filterMap_map]
  exact List.filterMap_some

theorem creations_append (log log' : List Event) :
    creations (log ++ log') = creations log ∪ creations log' := by
  rw [creations, List.filterMap_append, List.toFinset_append]
  rfl

/-- Events that create nothing. -/
theorem creations_eq_empty {log : List Event} (h : ∀ e ∈ log, e.created? = none) :
    creations log = ∅ := by
  rw [creations, List.filterMap_eq_nil_iff.2 h]
  rfl

theorem count_deletions (log : List Event) (o : Obj) :
    (deletions log).count o = log.count (.deleted o) := by
  induction log with
  | nil => rfl
  | cons e log ih =>
    rw [← List.singleton_append, deletions_append, List.count_append, List.count_append, ih]
    refine congrArg (· + _) ?_
    cases e with
    | created | freed => simp [deletions, Event.deleted?, List.filterMap_cons]
    | deleted => simp [deletions, Event.deleted?, List.count_singleton]

/-! ## Drops -/

/-- The area an object lies over. -/
def Obj.areaId : Obj → Nat
  | .area a | .umem a _ | .socket a _ _ => a

/-- How many objects an object lies over. -/
def Obj.height : Obj → Nat
  | .area _ => 0
  | .umem _ _ => 1
  | .socket _ _ _ => 2

theorem Obj.height_lt (x y : Obj) (hp : y.parent = some x) : x.height < y.height := by
  cases y <;> cases hp <;> exact Nat.lt_succ_self _

section
variable {ptr : Nat → Int} (strong : Obj → Nat)

/-- What is dropped behind an `Arc` is dropped with the last reference. -/
theorem dropArc_released {inner : (Obj → Nat) → (Obj → Nat) × List Event} {o : Obj}
    (h : strong o = 1 → ∃ d,
      Released Obj.parent strong o (inner (Function.update strong o 0)).1 d ∧
        (inner (Function.update strong o 0)).2 = d.map .deleted) :
    ∃ d, Released Obj.parent strong o (dropArc inner strong o).1 d ∧
      (dropArc inner strong o).2 = d.map .deleted := by
  unfold dropArc
  by_cases hone : strong o = 1
  · rw [if_pos hone]
    exact h hone
  · rw [if_neg hone]
    exact ⟨[], .shared hone, rfl⟩

theorem dropArea_released {a : Nat} (hptr : ptr a ≠ mapFailed) :
    ∃ d, Released Obj.parent strong (.area a) (dropArea ptr strong a).1 d ∧
      (dropArea ptr strong a).2 = d.map .deleted := by
  refine dropArc_released strong fun hone => ⟨[.area a], .root hone rfl, ?_⟩
  show mmapAreaDrop ptr a = _
  rw [mmapAreaDrop, if_neg hptr]
  rfl

theorem dropUmem_released {a u : Nat} (hptr : ptr a ≠ mapFailed) :
    ∃ d, Released Obj.parent strong (.umem a u) (dropUmem ptr strong a u).1 d ∧
      (dropUmem ptr strong a u).2 = d.map .deleted := by
  refine dropArc_released strong ?_
  intro hone
  obtain ⟨d, hd, hev⟩ := dropArea_released (Function.update strong (.umem a u) 0) hptr
  exact ⟨_ :: d, .last hone rfl hd, congrArg _ hev⟩

theorem dropSocket_released {a u j : Nat} (hptr : ptr a ≠ mapFailed) :
    ∃ d, Released Obj.parent strong (.socket a u j) (dropSocket ptr strong a u j).1 d ∧
      (dropSocket ptr strong a u j).2 = d.map .deleted := by
  refine dropArc_released strong ?_
  intro hone
  obtain ⟨d, hd, hev⟩ := dropUmem_released (Function.update strong (.socket a u j) 0) (u := u) hptr
  exact ⟨_ :: d, .last hone rfl hd, congrArg _ hev⟩

/-- The drop of an `Arc` releases a reference, and the calls it makes are those for the objects
that are dropped, in that order. -/
theorem Obj.drop_released {o : Obj} (hptr : ptr o.areaId ≠ mapFailed) :
    ∃ d, Released Obj.parent strong o (o.drop ptr strong).1 d ∧
      (o.drop ptr strong).2 = d.map .deleted := by
  cases o with
  | area a => exact dropArea_released strong hptr
  | umem a u => exact dropUmem_released strong hptr
  | socket a u j => exact dropSocket_released strong hptr

/-- The box that a handle frees. -/
def Handle.box : Handle → List Event
  | .arc _ => []
  | .ring r => [.freed r]

/-- So does the drop of a handle; the box of a ring is freed after these calls. -/
theorem Handle.drop_released {h : Handle} (hptr : ptr h.obj.areaId ≠ mapFailed) :
    ∃ d, Released Obj.parent strong h.obj (h.drop ptr strong).1 d ∧
      (h.drop ptr strong).2 = d.map .deleted ++ h.box := by
  obtain ⟨d, hd, hev⟩ := Obj.drop_released strong hptr
  cases h with
  | arc o => exact ⟨d, hd, hev.trans (List.append_nil _).symm⟩
  | ring r => exact ⟨d, hd, congrArg (· ++ _) hev⟩

end

/-! ## Reachable states -/

/-- The references that the application holds. -/
def App.refs (s : App) : Multiset Obj := (s.handles.map Handle.obj : List Obj)

/-- The strong counts count the references of the handles, those in `hand`, which are neither with
the application nor in an object, and those of the live objects. -/
structure App.Tracked (s : App) (hand : Multiset Obj) : Prop where
  counted : Counted Obj.parent (creations s.log) s.strong (s.refs + hand) (deletions s.log)
  fresh : ∀ o ∈ creations s.log, o.id < s.next ∧ o.areaId < s.next
  mapped : ∀ o ∈ creations s.log, s.ptr o.areaId ≠ mapFailed

variable {s s' : App}

theorem App.init_tracked : App.init.Tracked 0 where
  counted := Counted.empty
  fresh := by simp [creations, init]
  mapped := by simp [creations, init]

/-- A handle that is given away is in hand. -/
theorem App.Tracked.take (hs : s.Tracked 0) {k : Nat} {h : Handle}
    (hk : s.handles[k]? = some h) : (s.take k).Tracked {h.obj} := by
  have hrefs : (s.take k).refs + {h.obj} = s.refs + 0 := by
    obtain ⟨hlt, rfl⟩ := List.getElem?_eq_some_iff.1 hk
    rw [add_comm, Multiset.singleton_add, add_zero]
    exact Multiset.coe_eq_coe.2 ((List.getElem_cons_eraseIdx_perm hlt).map Handle.obj)
  refine ⟨?_, hs.fresh, hs.mapped⟩
  rw [hrefs]
  exact hs.counted

/-- A handle in hand is dropped. -/
theorem App.Tracked.dropHandle {h : Handle} (hs : s.Tracked {h.obj}) :
    (s.dropHandle h).Tracked 0 := by
  have hmem : h.obj ∈ s.refs + {h.obj} :=
    Multiset.mem_add.2 (.inr (Multiset.mem_singleton_self _))
  have hmade := hs.counted.made_of_pos _ (hs.counted.pos hmem)
  obtain ⟨d, hd, hev⟩ := Handle.drop_released s.strong (hs.mapped _ hmade)
  have hdel : deletions (h.drop s.ptr s.strong).2 = d := by
    rw [hev, deletions_append, deletions_map_deleted]
    cases h <;> simp [deletions, Event.deleted?, Handle.box]
  have hcre : creations (s.log ++ (h.drop s.ptr s.strong).2) = creations s.log := by
    have hnone : creations (h.drop s.ptr s.strong).2 = ∅ := by
      refine creations_eq_empty ?_
      intro e he
      rw [hev, List.mem_append, List.mem_map] at he
      rcases he with ⟨o, -, rfl⟩ | he
      · rfl
      · cases h with
        | arc o => cases he
        | ring r => rw [List.mem_singleton.1 he]; rfl
    rw [creations_append, hnone, Finset.union_empty]
  have hcounted := hs.counted.released hmem hd
  rw [add_comm, Multiset.singleton_add, Multiset.erase_cons_head] at hcounted
  refine ⟨?_, ?_, ?_⟩
  · show Counted _ (creations (s.log ++ _)) _ (s.refs + 0) (deletions (s.log ++ _))
    rw [hcre, deletions_append, hdel, add_zero]
    exact hcounted
  · show ∀ o ∈ creations (s.log ++ _), _
    rw [hcre]
    exact hs.fresh
  · show ∀ o ∈ creations (s.log ++ _), _
    rw [hcre]
    exact hs.mapped

/-- An object is made, and keeps the `Arc` in hand. -/
theorem App.Tracked.make {o : Obj} {rings : List Ring}
    (hs : s.Tracked (o.parent.elim 0 ({·}))) (hid : o.id = s.next) (hlt : o.areaId ≤ s.next)
    (hptr : s.ptr o.areaId ≠ mapFailed) (hr : ∀ r ∈ rings, r.owner = o) :
    (s.make o rings).Tracked 0 := by
  have hcre : creations (s.log ++ [.created o]) = insert o (creations s.log) := by
    ext x
    simp [mem_creations, or_comm]
  have hdel : deletions (s.log ++ [.created o]) = deletions s.log := by
    rw [deletions_append]
    exact List.append_nil _
  have hnew : o ∉ creations s.log := by
    intro hmem
    have := (hs.fresh o hmem).1
    omega
  have hrefs : (s.make o rings).refs = s.refs + Multiset.replicate (1 + rings.length) o := by
    have hrings : (rings.map Handle.ring).map Handle.obj = List.replicate rings.length o := by
      rw [List.map_map, List.eq_replicate_iff]
      refine ⟨List.length_map _, ?_⟩
      intro x hx
      obtain ⟨r, hrm, rfl⟩ := List.mem_map.1 hx
      exact hr r hrm
    rw [App.refs, App.refs, App.make, List.map_append, List.map_cons, hrings, ← Multiset.coe_add,
      Nat.add_comm, ← Multiset.coe_replicate, List.replicate_succ]
    rfl
  refine ⟨?_, ?_, ?_⟩
  · show Counted _ (creations (s.log ++ [.created o])) _ _ (deletions (s.log ++ [.created o]))
    rw [hcre, hdel, hrefs, add_zero]
    refine hs.counted.alloc hnew (by omega) ?_ ?_
    · intro x hx
      rw [hx]
      exact Multiset.mem_add.2 (.inr (Multiset.mem_singleton_self _))
    · intro x
      rw [Multiset.count_add, Multiset.count_add, Multiset.count_replicate]
      cases hp : o.parent with
      | none => simp [eq_comm]
      | some p => simp [Multiset.count_singleton, eq_comm, Nat.add_right_comm]
  · show ∀ x ∈ creations (s.log ++ [.created o]), x.id < s.next + 1 ∧ x.areaId < s.next + 1
    rw [hcre]
    intro x hx
    rcases Finset.mem_insert.1 hx with rfl | hx
    · omega
    · have := hs.fresh x hx
      omega
  · show ∀ x ∈ creations (s.log ++ [.created o]), s.ptr x.areaId ≠ mapFailed
    rw [hcre]
    intro x hx
    rcases Finset.mem_insert.1 hx with rfl | hx
    · exact hptr
    · exact hs.mapped x hx

/-- Every step keeps track. -/
theorem App.Tracked.effect {act : Act} (hs : s.Tracked 0) (h : Effect s act s') :
    s'.Tracked 0 := by
  cases h with
  | refused => exact hs
  | @mapped ret hret =>
    have hptr : App.Tracked { s with ptr := Function.update s.ptr s.next ret } 0 := by
      refine ⟨hs.counted, hs.fresh, ?_⟩
      intro o ho
      have hne : o.areaId ≠ s.next := Nat.ne_of_lt (hs.fresh o ho).2
      show Function.update s.ptr s.next ret o.areaId ≠ mapFailed
      rw [Function.update_of_ne hne]
      exact hs.mapped o ho
    refine App.Tracked.make (o := .area s.next) hptr rfl (Nat.le_refl _) ?_
      fun r hr => absurd hr List.not_mem_nil
    show Function.update s.ptr s.next ret s.next ≠ mapFailed
    rw [Function.update_self]
    exact hret
  | @made k p o rings hk hp hid hr =>
    have htake := hs.take hk
    have hmem : p ∈ (s.take k).refs + {p} :=
      Multiset.mem_add.2 (.inr (Multiset.mem_singleton_self _))
    have hmade := htake.counted.made_of_pos _ (htake.counted.pos hmem)
    have harea : o.areaId = p.areaId := by
      cases o <;> cases hp <;> rfl
    refine App.Tracked.make (by rw [hp]; exact htake) hid ?_ ?_ hr
    · rw [harea]
      exact Nat.le_of_lt (htake.fresh p hmade).2
    · rw [harea]
      exact htake.mapped p hmade
  | dropped hk ha => exact (hs.take hk).dropHandle
  | @cloned k o hk =>
    have hmem : o ∈ s.refs + 0 := by
      rw [add_zero]
      exact Multiset.mem_coe.2 (List.mem_map.2 ⟨_, List.mem_of_getElem? hk, rfl⟩)
    refine ⟨?_, hs.fresh, hs.mapped⟩
    have hrefs : App.refs { s with
        strong := Function.update s.strong o (s.strong o + 1)
        handles := s.handles ++ [.arc o] } + 0 = o ::ₘ (s.refs + 0) := by
      rw [add_zero, add_zero, refs, refs, List.map_append, ← Multiset.coe_add, add_comm]
      rfl
    rw [hrefs]
    exact hs.counted.clone hmem

/-! ## Runs -/

/-- In every state that a run reaches the counts are right. -/
theorem App.Tracked.run {as : List Act} {outs : List (Except NewError (List Handle))}
    (h : Run.run step App.init as = some (s, outs)) : s.Tracked 0 :=
  run_invariant (I := fun s => App.Tracked s 0) (Q := fun _ => True)
    (fun _ _ _ _ _ hi hstep => hi.effect (step_effect hstep)) App.init_tracked
    (fun _ _ => trivial) h

/-- An object is deleted after those that were made over it. -/
theorem App.Tracked.deleted_before (hs : s.Tracked 0) {pre post : List Event} {x y : Obj}
    (hlog : s.log = pre ++ .deleted x :: post) (hp : y.parent = some x)
    (hy : .created y ∈ s.log) : .deleted y ∈ pre := by
  have hdel : deletions s.log = deletions pre ++ x :: deletions post := by
    rw [hlog, deletions_append]
    rfl
  exact mem_deletions.1 (hs.counted.order _ x _ hdel y (mem_creations.2 hy) hp)

/-- Take any run of the constructors, of clones and of drops, on any number of areas, umems and
sockets. An object is deleted only after all objects that were made over it, no object is deleted
twice, and when no handle is left every object that was made is deleted. -/
theorem run_teardown {as : List Act} {outs : List (Except NewError (List Handle))}
    (hrun : Run.run step App.init as = some (s, outs)) :
    (∀ pre x post, s.log = pre ++ .deleted x :: post →
      ∀ y, y.parent = some x → .created y ∈ s.log → .deleted y ∈ pre) ∧
    (∀ x, s.log.count (.deleted x) ≤ 1) ∧
    (s.handles = [] → ∀ x, .created x ∈ s.log → .deleted x ∈ s.log) := by
  have hs := App.Tracked.run hrun
  refine ⟨fun pre x post hlog y hp hy => hs.deleted_before hlog hp hy, ?_,
    ?_⟩
  · intro x
    rw [← count_deletions]
    exact List.nodup_iff_count_le_one.1 hs.counted.nodup x
  · intro hnil x hx
    have hcounted := hs.counted
    have hrefs : s.refs + 0 = 0 := by
      rw [add_zero, App.refs, hnil]
      rfl
    rw [hrefs] at hcounted
    exact mem_deletions.1 (hcounted.all_dropped Obj.height Obj.height_lt (mem_creations.2 hx))

/-- An area, a umem, a socket and another one that could not be created, all dropped again. -/
def teardownRun : List Act :=
  [.mmapAreaNew 4096, .umemNew 0 16 16 none, .clone 0, .socketNew 0 [101, 116, 104] 16 16 none,
    .socketNewRx 2 [101, 116, 104] 16 (some 16), .drop 4, .drop 0, .drop 1, .drop 1, .drop 0]

theorem run_teardown_teardownRun :
    ∃ s outs, run step App.init teardownRun = some (s, outs) ∧
      (∀ pre x post, s.log = pre ++ .deleted x :: post →
        ∀ y, y.parent = some x → .created y ∈ s.log → .deleted y ∈ pre) ∧
      (∀ x, s.log.count (.deleted x) ≤ 1) ∧
      (s.handles = [] → ∀ x, .created x ∈ s.log → .deleted x ∈ s.log) := by
  have hsome : (run step App.init teardownRun).isSome := by decide +kernel
  obtain ⟨⟨s, outs⟩, hrun⟩ := Option.isSome_iff_exists.1 hsome
  exact ⟨s, outs, hrun, run_teardown hrun⟩

end Afxdp.Lifetime
