import Afxdp.Teardown

/-!
# Rings and their registration

The boxes of the rings are registered with libbpf when the umem or the socket is made, and libbpf
reads them until it is deleted. But a box does not live in the object: it lives in the handle of
its ring, next to an `Arc` of the object. The drop of such a handle deletes the object first and
frees the box then, if the `Arc` is the last one; otherwise it frees the box of a ring that is still
registered. So the rings outlive their registration in a run exactly if every handle of a ring is
dropped as the sole owner (`everyStep_ringsOutlive_iff`). With two such handles for one object the
first one to be dropped never is.
-/

namespace Afxdp.Lifetime

open Run (run EveryStep everyStep_congr)

/-- The box of a ring is freed only after the object it is registered with was deleted, and every
object that was made over this one. -/
def RingsOutlive (log : List Event) : Prop :=
  ∀ pre r post, log = pre ++ .freed r :: post →
    .deleted r.owner ∈ pre ∧ ∀ y, y.parent = some r.owner → .created y ∈ log → .deleted y ∈ pre

/-- If the handle of a ring is dropped, it is the sole owner left. -/
def Act.Sole (s : App) : Act → Prop
  | .drop k => ∀ r, s.handles[k]? = some (.ring r) → s.strong r.owner = 1
  | _ => True

/-! ## Logs -/

/-- The box of a ring is freed only after the object it is registered with was deleted. -/
def FreedAfter (log : List Event) : Prop :=
  ∀ pre r post, log = pre ++ .freed r :: post → .deleted r.owner ∈ pre

/-- One event more: if it frees a box, the object has to be deleted by then. -/
theorem freedAfter_concat {log : List Event} {e : Event} : FreedAfter (log ++ [e]) ↔
    FreedAfter log ∧ ∀ r, e = .freed r → .deleted r.owner ∈ log := by
  constructor
  · intro h
    refine ⟨?_, ?_⟩
    · intro pre r post hlog
      refine h pre r (post ++ [e]) ?_
      rw [hlog, List.append_assoc, List.cons_append]
    · rintro r rfl
      exact h log r [] rfl
  · rintro ⟨h, he⟩ pre r post hlog
    rcases List.eq_nil_or_concat post with rfl | ⟨post, e', rfl⟩
    · obtain ⟨rfl, hr⟩ := List.append_inj' hlog rfl
      exact he r (List.head_eq_of_cons_eq hr)
    · rw [List.concat_eq_append, ← List.cons_append, ← List.append_assoc] at hlog
      exact h pre r post (List.append_inj' hlog rfl).1

/-- The making of an object frees no box. -/
theorem freedAfter_created {log : List Event} {o : Obj} (h : FreedAfter log) :
    FreedAfter (log ++ [.created o]) := by
  refine freedAfter_concat.2 ⟨h, ?_⟩
  intro r hr
  cases hr

/-- Calls that delete something free no box. -/
theorem freedAfter_append {log : List Event} (d : List Obj) (h : FreedAfter log) :
    FreedAfter (log ++ d.map .deleted) := by
  induction d using List.reverseRecOn with
  | nil => simpa using h
  | append_singleton d o ih =>
    rw [List.map_append, ← List.append_assoc]
    refine freedAfter_concat.2 ⟨ih, ?_⟩
    intro r hr
    cases hr

variable {s s' : App}

/-- In a state that is reached it is enough that the object itself was deleted. -/
theorem ringsOutlive_iff (hs : s.Tracked 0) : RingsOutlive s.log ↔ FreedAfter s.log := by
  constructor
  · intro h pre r post hlog
    exact (h pre r post hlog).1
  · intro h pre r post hlog
    have hdel := h pre r post hlog
    refine ⟨hdel, ?_⟩
    intro y hp hy
    obtain ⟨pre₁, pre₂, rfl⟩ := List.append_of_mem hdel
    rw [List.append_assoc, List.cons_append] at hlog
    exact List.mem_append_left _ (hs.deleted_before hlog hp hy)

/-! ## Steps -/

/-- The drop of a handle frees the box of a ring after its registration exactly if it was the sole
owner. -/
theorem App.Tracked.freedAfter_drop (hs : s.Tracked 0) (hf : FreedAfter s.log) {k : Nat}
    {h : Handle} (hk : s.handles[k]? = some h) : FreedAfter ((s.take k).dropHandle h).log ↔
      ∀ r, h = .ring r → s.strong r.owner = 1 := by
  have hmem : h.obj ∈ s.refs + 0 := by
    rw [add_zero]
    exact Multiset.mem_coe.2 (List.mem_map_of_mem (List.mem_of_getElem? hk))
  have hmade := hs.counted.made_of_pos _ (hs.counted.pos hmem)
  obtain ⟨d, hd, hev⟩ := Handle.drop_released s.strong (hs.mapped _ hmade)
  have hlog : ((s.take k).dropHandle h).log = s.log ++ d.map .deleted ++ h.box := by
    rw [List.append_assoc, ← hev]
    rfl
  rw [hlog]
  cases h with
  | arc o =>
    rw [Handle.box, List.append_nil]
    refine iff_of_true (freedAfter_append d hf) ?_
    intro r hr
    cases hr
  | ring r =>
    -- the object is live, so the deletion has to be among those of this drop
    have hlive : .deleted r.owner ∉ s.log := fun hdel =>
      hs.counted.not_dropped hmem (mem_deletions.2 hdel)
    have hdel : .deleted r.owner ∈ s.log ++ d.map .deleted ↔ s.strong r.owner = 1 := by
      have hmap : .deleted r.owner ∈ d.map Event.deleted ↔ r.owner ∈ d := by simp
      rw [List.mem_append, or_iff_right hlive, hmap]
      exact hd.mem_iff
    rw [Handle.box, freedAfter_concat, and_iff_right (freedAfter_append d hf)]
    constructor
    · rintro h r' ⟨⟩
      exact hdel.1 (h r rfl)
    · rintro h r' ⟨⟩
      exact hdel.2 (h r rfl)

/-- A step keeps the rings registered for as long as their boxes live exactly if it does not drop
the handle of a ring that others share. -/
theorem App.Tracked.freedAfter_step {act : Act} {out : Except NewError (List Handle)}
    (hs : s.Tracked 0) (hf : FreedAfter s.log) (h : step s act = some (s', out)) :
    FreedAfter s'.log ↔ act.Sole s := by
  by_cases hdrop : ∃ k, act = .drop k
  · obtain ⟨k, rfl⟩ := hdrop
    obtain ⟨hd, hk, rfl⟩ := step_drop_inv h
    rw [hs.freedAfter_drop hf hk]
    simp only [Act.Sole, hk, Option.some.injEq]
  · have hsole : act.Sole s := by
      cases act with
      | drop k => exact absurd ⟨k, rfl⟩ hdrop
      | _ => trivial
    refine iff_of_true ?_ hsole
    cases step_effect h with
    | refused => exact hf
    | mapped hret => exact freedAfter_created hf
    | made hk hp hid hr => exact freedAfter_created hf
    | @dropped k hd hk ha =>
      rcases ha with rfl | ⟨o, rfl⟩
      · exact absurd ⟨k, rfl⟩ hdrop
      · refine (hs.freedAfter_drop hf hk).2 ?_
        intro r hr
        cases hr
    | cloned hk => exact hf

/-! ## Runs -/

/-- In every run of the constructors, of clones and of drops, in whatever order, every box of a
ring outlives its registration in every state exactly if every handle of a ring that is dropped is
the sole owner of its umem or socket. -/
theorem everyStep_ringsOutlive_iff (as : List Act) :
    EveryStep step (fun _ _ s' _ => RingsOutlive s'.log) App.init as ↔
      EveryStep step (fun s act _ _ => act.Sole s) App.init as := by
  refine everyStep_congr (I := fun s => s.Tracked 0 ∧ FreedAfter s.log) ?_
    ⟨App.init_tracked, by simp [FreedAfter, App.init]⟩ as
  rintro s act s' out ⟨hs, hf⟩ hstep
  have hs' := hs.effect (step_effect hstep)
  rw [ringsOutlive_iff hs']
  exact ⟨hs.freedAfter_step hf hstep, fun h => ⟨hs', h⟩⟩

/-- A socket is made and its `SocketTx` is dropped at once, as a `_` in the pattern does. -/
def droppedTx : List Act :=
  [.mmapAreaNew 4096, .umemNew 0 16 16 none, .socketNew 0 [101, 116, 104] 16 16 none, .drop 4]

/-- The box of the Tx ring is freed while the socket is still registered with it. -/
theorem droppedTx_not_ringsOutlive :
    ∃ s outs, run step App.init droppedTx = some (s, outs) ∧ ¬ RingsOutlive s.log := by
  have hsome : ((run step App.init droppedTx).map fun q => q.1.log) =
      some ([.created (.area 0), .created (.umem 0 1), .created (.socket 0 1 2)] ++
        [.freed (.tx 0 1 2)]) := by
    decide +kernel
  obtain ⟨⟨s, outs⟩, hrun, hlog⟩ := Option.map_eq_some_iff.1 hsome
  refine ⟨s, outs, hrun, ?_⟩
  intro h
  have hdel := (h _ (.tx 0 1 2) [] hlog).1
  exact absurd hdel (by decide)

end Afxdp.Lifetime
