import Afxdp.CursorWrap
import Afxdp.Steps

/-!
# The data path of both builds

Where a call of a debug build returns, the one of the release build returns the same: checked
arithmetic either gives what wrapping arithmetic gives or panics (`CallM.Below`). So each step of a
debug build is one of the release build (`stepIn_some`), and so is each run (`run_stepIn`): what is
known of the data path holds in both. The other way round there is one exception. Where the ring
index of a call is incremented to `2 ^ 32` it overflows (`Act.Overflows`), and the debug build
panics there and nowhere else (`stepIn_eq_none_iff`).
-/

namespace Afxdp

open Spsc (cursor RingBuf)
open Loop (forRange)
open Run (run run_cons)

/-! ## Calls -/

namespace Profile

theorem sub64_of_debug {a b c : Nat} (h : debug.sub64 a b = .ok c) : release.sub64 a b = .ok c := by
  simp only [sub64] at h
  split at h
  · next hle =>
      rw [release.sub64_ok hle]
      exact h
  · cases h

theorem addU32_of_debug {a b c : UInt32} (h : debug.addU32 a b = .ok c) :
    release.addU32 a b = .ok c := by
  simp only [addU32] at h
  split at h
  · exact h
  · cases h

end Profile

namespace CallM

variable {β α γ : Type}

/-- Where `x` returns, `y` returns the same. -/
def Below (x y : CallM β α) : Prop := ∀ c a c', x c = .ok a c' → y c = .ok a c'

theorem Below.refl (x : CallM β α) : Below x x := fun _ _ _ h => h

theorem Below.bind {x y : CallM β α} {f g : α → CallM β γ} (h : Below x y)
    (hfg : ∀ a, Below (f a) (g a)) : Below (x >>= f) (y >>= g) := by
  intro c r c' hr
  rw [bind_apply] at hr ⊢
  cases hx : x c with
  | ok a c₁ =>
    rw [hx] at hr
    rw [h _ _ _ hx]
    exact hfg a _ _ _ hr
  | error e c₁ =>
    rw [hx] at hr
    cases hr

theorem Below.ofExcept {x y : Except Panic α} (h : ∀ a, x = .ok a → y = .ok a) :
    Below (ofExcept x : CallM β α) (ofExcept y) := by
  intro c a c' hr
  cases x with
  | ok b =>
    rw [h b rfl]
    exact hr
  | error e => cases hr

theorem Below.forRange {body body' : UInt32 → CallM β UInt32} (h : ∀ i, Below (body i) (body' i))
    (n : Nat) (i : UInt32) : Below (forRange body n i) (forRange body' n i) := by
  induction n generalizing i with
  | zero => exact .refl _
  | succ n ih => exact .bind (h i) ih

theorem Below.ite {p : Prop} [Decidable p] {x y x' y' : CallM β α} (h : Below x y)
    (h' : Below x' y') : Below (if p then x else x') (if p then y else y') := by
  split
  · exact h
  · exact h'

end CallM

open CallM (Below)

variable {T : Type}

theorem fill_below (fq : XskRingProd) (batchSize : Nat) :
    Below (fill .debug fq batchSize : CallM (Vec (BufMmap T)) _) (fill .release fq batchSize) := by
  have hbody : ∀ i, Below (fillBody .debug i : CallM (Vec (BufMmap T)) _)
      (fillBody .release i) := by
    intro i
    refine .bind (.refl _) fun bufs => .bind (.refl _) fun _ => ?_
    split
    · exact .bind (.ofExcept fun _ => Profile.addU32_of_debug) fun _ => .refl _
    · exact .refl _
  refine .bind (.refl _) fun bufs => .ite (.refl _) ?_
  exact .bind (.refl _) fun _ => .bind (.forRange hbody _ _) fun _ => .refl _

theorem trySend_below (tx : XskRingProd) (batchSize : Nat) :
    Below (trySend .debug tx batchSize : CallM (ArrayDeque (BufMmap T)) _)
      (trySend .release tx batchSize) := by
  have hbody : ∀ i, Below (trySendBody .debug i : CallM (ArrayDeque (BufMmap T)) _)
      (trySendBody .release i) := by
    intro i
    refine .bind (.refl _) fun bufs => .bind (.refl _) fun _ => .bind (.refl _) fun b => ?_
    exact .bind (.refl _) fun _ => .ofExcept fun _ => Profile.addU32_of_debug
  refine .bind (.refl _) fun bufs => .ite (.refl _) ?_
  exact .bind (.refl _) fun _ => .bind (.forRange hbody _ _) fun _ => .refl _

theorem service_below [Inhabited T] (area : MmapArea) (cq : XskRingCons Nat) (batchSize : Nat) :
    Below (service .debug area cq batchSize : CallM (Vec (BufMmap T)) _)
      (service .release area cq batchSize) := by
  have hbody : ∀ avail i, Below (serviceBody .debug cq avail i : CallM (Vec (BufMmap T)) _)
      (serviceBody .release cq avail i) := by
    intro avail i
    refine .bind (.refl _) fun _ => ?_
    exact .bind (.ofExcept fun _ => Profile.addU32_of_debug) fun _ => .refl _
  refine .bind (.refl _) fun bufs =>
    .bind (.ofExcept fun _ => Profile.sub64_of_debug) fun room => ?_
  refine .bind (.refl _) fun _ => .ite (.refl _) ?_
  refine .bind (.ofExcept fun _ => Profile.sub64_of_debug) fun avail => ?_
  exact .bind (.forRange (hbody avail) _ _) fun _ => .refl _

theorem tryRecv_below (area : MmapArea) (rx : XskRingCons XdpDesc) (batchSize : Nat) (user : T) :
    Below (tryRecv .debug area rx batchSize user) (tryRecv .release area rx batchSize user) := by
  have hbody : ∀ avail i, Below (tryRecvBody .debug rx avail user i)
      (tryRecvBody .release rx avail user i) := by
    intro avail i
    refine .bind (.refl _) fun _ => .bind (.refl _) fun b => .bind (.refl _) fun bufs => ?_
    exact .bind (.refl _) fun _ => .ite (.refl _) (.ofExcept fun _ => Profile.addU32_of_debug)
  refine .bind (.refl _) fun bufs =>
    .bind (.ofExcept fun _ => Profile.sub64_of_debug) fun room => ?_
  refine .bind (.refl _) fun _ => .ite (.refl _) ?_
  refine .bind (.ofExcept fun _ => Profile.sub64_of_debug) fun avail => ?_
  exact .bind (.forRange (hbody avail) _ _) fun _ => .refl _

/-! ## Steps -/

variable {ι ν δ : Type}

/-- The ring index of a call overflows, in the increment past its last slot at the latest. -/
def Act.Overflows (p : Profile) (s : Sys ι ν δ T) : Act ι ν δ T → Prop
  | .fill i v batchSize granted => ¬ p.Increments (s.link i).fq.prod
      (grantCount (s.link i).fq granted (min (s.vecs v).len batchSize))
  | .tryRecv i d batchSize _ grant => ¬ p.Increments (s.link i).rx.cons
      (recvCount s i d batchSize grant)
  | .trySend i d batchSize granted _ => ¬ p.Increments (s.link i).tx.prod
      (sendCount s i d batchSize granted)
  | .service i v batchSize grant => ¬ p.Increments (s.link i).cq.cons
      (peekCount (s.link i).cq grant (serviceRequest (s.vecs v) batchSize))
  | _ => False

section
variable [DecidableEq ι] [DecidableEq ν] [DecidableEq δ] [Inhabited T]
  {s : Sys ι ν δ T}

/-- Each step of a build is one of the release build. -/
theorem stepIn_some {p : Profile} {a : Act ι ν δ T} {r : Sys ι ν δ T × Out}
    (h : stepIn p s a = some r) : step s a = some r := by
  cases p with
  | release => exact h
  | debug =>
    cases a with
    | fill i v batchSize granted =>
      simp only [stepIn] at h
      split at h
      · next n c hcall =>
          rw [step_fill_of (fill_below _ _ _ _ _ hcall)]
          exact h
      · cases h
    | tryRecv i d batchSize user grant =>
      simp only [stepIn] at h
      split at h
      · next n c hcall =>
          rw [step_tryRecv_of (tryRecv_below _ _ _ _ _ _ _ hcall)]
          exact h
      · cases h
    | trySend i d batchSize granted send =>
      simp only [stepIn] at h
      split at h
      · next n c hcall =>
          rw [step_trySend_of (trySend_below _ _ _ _ _ hcall)]
          exact h
      · cases h
    | service i v batchSize grant =>
      simp only [stepIn] at h
      split at h
      · next n c hcall =>
          rw [step_service_of (service_below _ _ _ _ _ _ hcall)]
          exact h
      · cases h
    | _ => exact h

/-- Only a debug build overflows, and only if it increments at all. -/
theorem Profile.not_increments {p : Profile} {c n : Nat} (h : ¬ p.Increments c n) :
    p = .debug ∧ n ≠ 0 ∧ 2 ^ 32 ≤ (cursor c).toNat + n := by
  rw [Increments, not_or, Nat.not_lt] at h
  obtain ⟨hp, hover⟩ := h
  have hlt := (cursor c).toNat_lt
  refine ⟨?_, by omega, hover⟩
  cases p with
  | debug => rfl
  | release => exact absurd rfl hp

omit [DecidableEq ι] [DecidableEq ν] [DecidableEq δ] [Inhabited T] in
/-- Without an overflow `fill` does not depend on the build. -/
theorem fill_of_increments {p : Profile} {r : RingBuf Nat} {granted : Bool} {batchSize : Nat}
    {v : Vec (BufMmap T)}
    (hinc : p.Increments r.prod (grantCount r granted (min v.len batchSize))) :
    fill p (prodView r granted false .sent) batchSize ⟨v, []⟩ =
      fill .release (prodView r granted false .sent) batchSize ⟨v, []⟩ := by
  rcases eq_or_ne (min v.len batchSize) 0 with hzero | hpos
  · exact (fill_nothing hzero).trans (fill_nothing hzero).symm
  by_cases hg : (granted && decide (min v.len batchSize ≤ r.free)) = true
  · have hres : (prodView r granted false .sent).reserve (min v.len batchSize) =
        (min v.len batchSize, cursor r.prod) := if_pos hg
    rw [grantCount, if_pos hg] at hinc
    exact (fill_eq hres (Nat.pos_of_ne_zero hpos) (Nat.le_refl _) hinc).trans
      (fill_eq hres (Nat.pos_of_ne_zero hpos) (Nat.le_refl _) (.inl rfl)).symm
  · have hres : (prodView r granted false .sent).reserve (min v.len batchSize) = (0, cursor 0) :=
      if_neg hg
    exact (fill_refused hpos hres).trans (fill_refused hpos hres).symm

omit [DecidableEq ι] [DecidableEq ν] [DecidableEq δ] [Inhabited T] in
/-- Without an overflow `try_send` does not depend on the build, whether its `sendto` is accepted
or not. -/
theorem trySend_of_increments {p : Profile} {r : RingBuf XdpDesc} {granted wake : Bool}
    {send : Sendto} {batchSize : Nat} {d : ArrayDeque (BufMmap T)}
    (hinc : p.Increments r.prod (grantCount r granted (min d.len batchSize))) :
    trySend p (prodView r granted wake send) batchSize ⟨d, []⟩ =
      trySend .release (prodView r granted wake send) batchSize ⟨d, []⟩ := by
  rcases eq_or_ne (min d.len batchSize) 0 with hzero | hpos
  · exact (trySend_nothing hzero).trans (trySend_nothing hzero).symm
  obtain ⟨n, c, hres, hle, hinc⟩ : ∃ n c, (prodView r granted wake send).reserve
      (min d.len batchSize) = (n, cursor c) ∧ n ≤ min d.len batchSize ∧ p.Increments c n := by
    by_cases hg : (granted && decide (min d.len batchSize ≤ r.free)) = true
    · rw [grantCount, if_pos hg] at hinc
      exact ⟨_, r.prod, if_pos hg, Nat.le_refl _, hinc⟩
    · exact ⟨0, 0, if_neg hg, Nat.zero_le _, .inr (cursor 0).toNat_lt⟩
  by_cases hsend : wake = true → send.Accepted
  · exact (trySend_eq hpos hres hle hinc hsend).trans
      (trySend_eq hpos hres hle (.inl rfl) hsend).symm
  · obtain ⟨hwake, hbad⟩ := not_forall.1 hsend
    exact (trySend_wakeup_panic hpos hres hle hinc hwake hbad).trans
      (trySend_wakeup_panic hpos hres hle (.inl rfl) hwake hbad).symm

/-- A `try_recv` that returns was granted no more than it asked for, and read lengths that fit. -/
theorem step_tryRecv_reads {i : ι} {d : δ} {batchSize grant : Nat} {user : T}
    {r : Sys ι ν δ T × Out} (hlen : afXdpReserved ≤ s.area.bufLen)
    (h : step s (.tryRecv i d batchSize user grant) = some r) :
    recvCount s i d batchSize grant ≤ recvRequest (s.deques d) batchSize ∧
      ∀ k, k < recvCount s i d batchSize grant →
        ((consView (s.link i).rx grant).desc (cursor ((s.link i).rx.cons + k))).len < 2 ^ 16 := by
  obtain ⟨-, hret, hdesc⟩ := step_tryRecv_inv hlen h
  rw [hret] at hdesc
  refine ⟨Nat.le_trans (Nat.min_le_right _ _) (Nat.min_le_left _ _), fun k hk => ?_⟩
  exact consView_desc (P := fun e => e.len < 2 ^ 16) (recvCount_le s i d batchSize grant).1 hdesc
    grant hk

/-- A call in which no increment overflows does not depend on the build. -/
theorem stepIn_some_of_not_overflows {p : Profile} {a : Act ι ν δ T} {r : Sys ι ν δ T × Out}
    (hlen : afXdpReserved ≤ s.area.bufLen) (h : step s a = some r) (hinc : ¬ a.Overflows p s) :
    stepIn p s a = some r := by
  rw [← h]
  cases a with
  | fill i v batchSize granted =>
    simp only [step, stepIn, fill_of_increments (not_not.1 hinc)]
  | trySend i d batchSize granted send =>
    simp only [step, stepIn, trySend_of_increments (not_not.1 hinc)]
  | tryRecv i d batchSize user grant =>
    obtain ⟨hle, hget⟩ := step_tryRecv_reads hlen h
    have hinc : p.Increments _ _ := not_not.1 hinc
    have hcall : tryRecv p s.area (consView (s.link i).rx grant) batchSize user ⟨s.deques d, []⟩ =
        tryRecv .release s.area (consView (s.link i).rx grant) batchSize user ⟨s.deques d, []⟩ := by
      rcases Nat.eq_zero_or_pos (recvCount s i d batchSize grant) with hzero | hpos
      · have hpeek : (consView (s.link i).rx grant).peek (recvRequest (s.deques d) batchSize) =
            (0, cursor (s.link i).rx.cons) := congrArg (·, _) hzero
        exact (tryRecv_zero hpeek).trans (tryRecv_zero hpeek).symm
      · exact (tryRecv_eq rfl hpos hle hinc hlen hget).trans
          (tryRecv_eq rfl hpos hle (.inl rfl) hlen hget).symm
    simp only [step, stepIn, hcall]
  | service i v batchSize grant =>
    have hinc : p.Increments _ _ := not_not.1 hinc
    have hcall : service p s.area (consView (s.link i).cq grant) batchSize ⟨s.vecs v, []⟩ =
        service .release s.area (consView (s.link i).cq grant) batchSize ⟨s.vecs v, []⟩ := by
      rcases Nat.eq_zero_or_pos
        (peekCount (s.link i).cq grant (serviceRequest (s.vecs v) batchSize)) with hzero | hpos
      · have hpeek : (consView (s.link i).cq grant).peek (serviceRequest (s.vecs v) batchSize) =
            (0, cursor (s.link i).cq.cons) := congrArg (·, _) hzero
        exact (service_zero hpeek).trans (service_zero hpeek).symm
      · exact (service_eq rfl hpos hinc hlen).trans (service_eq rfl hpos (.inl rfl) hlen).symm
    simp only [step, stepIn, hcall]
  | _ => rfl

/-- The increment that overflows panics. -/
theorem stepIn_of_overflows {p : Profile} {a : Act ι ν δ T}
    (hlen : afXdpReserved ≤ s.area.bufLen) (hover : a.Overflows p s) : stepIn p s a = none := by
  by_contra hne
  obtain ⟨⟨s', out⟩, hsome⟩ := Option.ne_none_iff_exists'.1 hne
  have h := stepIn_some hsome
  cases a with
  | fill i v batchSize granted =>
    obtain ⟨rfl, hn, hover⟩ := Profile.not_increments hover
    have hg : (granted && decide (min (s.vecs v).len batchSize ≤ (s.link i).fq.free)) = true := by
      by_contra hg
      exact hn (if_neg hg)
    have hres : (prodView (s.link i).fq granted false .sent).reserve
        (min (s.vecs v).len batchSize) =
          (min (s.vecs v).len batchSize, cursor (s.link i).fq.prod) := if_pos hg
    rw [grantCount, if_pos hg] at hn hover
    obtain ⟨c, hcall⟩ := fill_overflow hres hn (Nat.le_refl _) hover
    simp only [stepIn, hcall, reduceCtorEq] at hsome
  | trySend i d batchSize granted send =>
    obtain ⟨rfl, hn, hover⟩ := Profile.not_increments hover
    have hg : (granted && decide (min (s.deques d).len batchSize ≤ (s.link i).tx.free)) = true := by
      by_contra hg
      exact hn (if_neg hg)
    have hres : (prodView (s.link i).tx granted (s.link i).wake send).reserve
        (min (s.deques d).len batchSize) =
          (min (s.deques d).len batchSize, cursor (s.link i).tx.prod) := if_pos hg
    rw [sendCount, grantCount, if_pos hg] at hn hover
    obtain ⟨c, hcall⟩ := trySend_overflow hres hn (Nat.le_refl _) hover
    simp only [stepIn, hcall, reduceCtorEq] at hsome
  | tryRecv i d batchSize user grant =>
    obtain ⟨hle, hget⟩ := step_tryRecv_reads hlen h
    obtain ⟨rfl, hn, hover⟩ := Profile.not_increments hover
    obtain ⟨c, hcall⟩ := tryRecv_overflow s.area user rfl hn hle hlen hget hover
    simp only [stepIn, hcall, reduceCtorEq] at hsome
  | service i v batchSize grant =>
    obtain ⟨rfl, hn, hover⟩ := Profile.not_increments hover
    have hpeek : (consView (s.link i).cq grant).peek (serviceRequest (s.vecs v) batchSize) =
        (peekCount (s.link i).cq grant (serviceRequest (s.vecs v) batchSize),
          cursor (s.link i).cq.cons) := rfl
    obtain ⟨c, hcall⟩ := service_overflow hpeek hn hlen hover
    simp only [stepIn, hcall, reduceCtorEq] at hsome
  | _ => exact hover

/-- Without an overflow the builds do the same, also where both panic. -/
theorem stepIn_of_not_overflows {p : Profile} {a : Act ι ν δ T}
    (hlen : afXdpReserved ≤ s.area.bufLen) (hinc : ¬ a.Overflows p s) :
    stepIn p s a = step s a := by
  cases h : step s a with
  | some r => exact stepIn_some_of_not_overflows hlen h hinc
  | none =>
    by_contra hne
    obtain ⟨r, hr⟩ := Option.ne_none_iff_exists'.1 hne
    rw [stepIn_some hr] at h
    cases h

/-- A step of a build panics where the one of the release build does, and where its ring index
overflows. -/
theorem stepIn_eq_none_iff {p : Profile} {a : Act ι ν δ T} (hlen : afXdpReserved ≤ s.area.bufLen) :
    stepIn p s a = none ↔ step s a = none ∨ a.Overflows p s := by
  by_cases hinc : a.Overflows p s
  · simp only [stepIn_of_overflows hlen hinc, hinc, or_true]
  · simp only [stepIn_of_not_overflows hlen hinc, hinc, or_false]

/-- A run of a build is one of the release build. -/
theorem run_stepIn {p : Profile} {s' : Sys ι ν δ T} {as : List (Act ι ν δ T)} {outs : List Out}
    (h : run (stepIn p) s as = some (s', outs)) : run step s as = some (s', outs) := by
  induction as generalizing s outs with
  | nil => exact h
  | cons a as ih =>
    obtain ⟨t, out, outs', h1, h2, rfl⟩ := run_cons.1 h
    exact run_cons.2 ⟨t, out, outs', stepIn_some h1, ih h2, rfl⟩

end

end Afxdp
