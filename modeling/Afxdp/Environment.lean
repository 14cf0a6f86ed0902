import Afxdp.Steps

/-!
# What the application and the kernel do to the state

The counterpart of `Afxdp.Steps` for the other steps: what a kernel step needs and changes
(`kernelStep_takeFill` and so on, `step_kernel_inv`), and what the application's steps on its own
buffers do to its collections. The results about runs use these and never unfold `step`.
-/

namespace Afxdp

open Spsc (RingBuf)
open Mem (readAt)

/-! ## The kernel -/

section
variable {bufLen : Nat} {mem : Nat → UInt8} {l : Link} {h : Hist}
  {r : (Nat → UInt8) × Link × Hist}

theorem kernelStep_takeFill (hr : kernelStep bufLen mem l h .takeFill = some r) :
    1 ≤ l.fq.used ∧
      r = (mem, { l with fq := l.fq.release 1, krx := l.krx ++ [l.fq.entry l.fq.cons] }, h) := by
  simp only [kernelStep] at hr
  split at hr
  · next hu => cases hr; exact ⟨hu, rfl⟩
  · cases hr

/-- The kernel writes only to chunks it may receive into. -/
theorem kernelStep_write {j off : Nat} {byte : UInt8}
    (hr : kernelStep bufLen mem l h (.write j off byte) = some r) :
    ∃ a, a ∈ l.fq.entries ++ l.krx ∧ off < bufLen ∧
      r = (Function.update mem (a / bufLen * bufLen + off) byte, l, h) := by
  simp only [kernelStep] at hr
  split at hr
  · next a ha =>
      split at hr
      · next ho => cases hr; exact ⟨a, List.mem_of_getElem? ha, ho, rfl⟩
      · cases hr
  · cases hr

theorem kernelStep_publish {j o len options : Nat}
    (hr : kernelStep bufLen mem l h (.publish j o len options) = some r) :
    ∃ a, l.krx[j]? = some a ∧ o < bufLen ∧ o + len ≤ bufLen ∧ 1 ≤ l.rx.free ∧
      r = (mem, { l with krx := l.krx.eraseIdx j,
                         rx := l.rx.push ⟨a / bufLen * bufLen + o, len, options⟩ },
        { h with published := h.published ++ [readAt mem (a / bufLen * bufLen + o) len] }) := by
  simp only [kernelStep] at hr
  split at hr
  · next a ha =>
      split at hr
      · next hg => cases hr; exact ⟨a, ha, hg.1, hg.2.1, hg.2.2, rfl⟩
      · cases hr
  · cases hr

theorem kernelStep_takeTx (hr : kernelStep bufLen mem l h .takeTx = some r) :
    1 ≤ l.tx.used ∧
      r = (mem, { l with tx := l.tx.release 1,
                         ktx := l.ktx ++ [(l.tx.cons, l.tx.entry l.tx.cons)] }, h) := by
  simp only [kernelStep] at hr
  split at hr
  · next hu => cases hr; exact ⟨hu, rfl⟩
  · cases hr

/-- A read by the kernel changes nothing but the record of reads. -/
theorem kernelStep_readTx {j : Nat} (hr : kernelStep bufLen mem l h (.readTx j) = some r) :
    ∃ c d, (c, d) ∈ l.inFlight ∧
      r = (mem, l, { h with read := h.read ++ [(c, readAt mem d.addr d.len)] }) := by
  simp only [kernelStep] at hr
  split at hr
  · next c d hd => cases hr; exact ⟨c, d, List.mem_of_getElem? hd, rfl⟩
  · cases hr

theorem kernelStep_complete {j : Nat} (hr : kernelStep bufLen mem l h (.complete j) = some r) :
    ∃ c d, l.ktx[j]? = some (c, d) ∧ 1 ≤ l.cq.free ∧
      r = (mem, { l with ktx := l.ktx.eraseIdx j, cq := l.cq.push d.addr }, h) := by
  simp only [kernelStep] at hr
  split at hr
  · next c d hd =>
      split at hr
      · next hf => cases hr; exact ⟨c, d, hd, hf, rfl⟩
      · cases hr
  · cases hr

theorem kernelStep_setWake {b : Bool} (hr : kernelStep bufLen mem l h (.setWake b) = some r) :
    r = (mem, { l with wake := b }, h) := by
  simp only [kernelStep] at hr
  cases hr; rfl

end

/-! ## Collections -/

section
variable {ι ν δ T : Type} [DecidableEq ν] [DecidableEq δ] {s s' : Sys ι ν δ T}

namespace Sys

/-- Replacing a vector replaces its buffers. -/
theorem coll_update_vec (s : Sys ι ν δ T) (v : ν) (w : Vec (BufMmap T)) :
    coll { s with vecs := Function.update s.vecs v w } =
      Function.update s.coll (.vec v) w.list := by
  funext c
  cases c with
  | vec u =>
    simp only [coll]
    by_cases hu : u = v
    · subst hu; simp
    · have hne : (Coll.vec u : Coll ν δ) ≠ .vec v := fun h => hu (Coll.vec.inj h)
      rw [Function.update_of_ne hu, Function.update_of_ne hne]
      rfl
  | deque d =>
    rw [Function.update_of_ne (by simp)]
    rfl

/-- Replacing a deque replaces its buffers. -/
theorem coll_update_deque (s : Sys ι ν δ T) (d : δ) (w : ArrayDeque (BufMmap T)) :
    coll { s with deques := Function.update s.deques d w } =
      Function.update s.coll (.deque d) w.list := by
  funext c
  cases c with
  | vec v =>
    rw [Function.update_of_ne (by simp)]
    rfl
  | deque e =>
    simp only [coll]
    by_cases he : e = d
    · subst he; simp
    · have hne : (Coll.deque e : Coll ν δ) ≠ .deque d := fun h => he (Coll.deque.inj h)
      rw [Function.update_of_ne he, Function.update_of_ne hne]
      rfl

/-- As many buffers as before, or fewer, fit. -/
theorem coll_setColl {l : List (BufMmap T)} {c : Coll ν δ} (hl : l.length ≤ (s.coll c).length) :
    (s.setColl l c).coll = Function.update s.coll c l := by
  cases c with
  | vec v =>
    rw [setColl, coll_update_vec]
    exact congrArg _ (List.take_of_length_le (Nat.le_trans hl (s.vecs v).le))
  | deque d =>
    rw [setColl, coll_update_deque]
    exact congrArg _ (List.take_of_length_le (Nat.le_trans hl (s.deques d).le))

/-- An insertion that is possible puts the buffer at its position and changes nothing else. -/
theorem insert_inv {k spare : Nat} {b : BufMmap T} {c : Coll ν δ}
    (h : s.insert k b spare c = some s') :
    s'.coll = Function.update s.coll c ((s.coll c).take k ++ b :: (s.coll c).drop k) ∧
      s'.area = s.area ∧ s'.mem = s.mem ∧ s'.link = s.link ∧ s'.hist = s.hist := by
  cases c with
  | vec v =>
    cases h
    exact ⟨coll_update_vec s v _, rfl, rfl, rfl, rfl⟩
  | deque d =>
    obtain ⟨w, hw, rfl⟩ := Option.map_eq_some_iff.1 h
    refine ⟨?_, rfl, rfl, rfl, rfl⟩
    rw [coll_update_deque]
    unfold ArrayDeque.insertAt at hw
    split at hw
    · cases hw; rfl
    · cases hw

@[simp] theorem setColl_area (l : List (BufMmap T)) (c : Coll ν δ) :
    (s.setColl l c).area = s.area := by cases c <;> rfl

@[simp] theorem setColl_mem (l : List (BufMmap T)) (c : Coll ν δ) :
    (s.setColl l c).mem = s.mem := by cases c <;> rfl

@[simp] theorem setColl_link (l : List (BufMmap T)) (c : Coll ν δ) :
    (s.setColl l c).link = s.link := by cases c <;> rfl

@[simp] theorem setColl_hist (l : List (BufMmap T)) (c : Coll ν δ) :
    (s.setColl l c).hist = s.hist := by cases c <;> rfl

/-- An update of one buffer replaces it and changes nothing else. -/
theorem modifyBuf_inv {c : Coll ν δ} {j : Nat} {f : BufMmap T → Option (BufMmap T)}
    (h : s.modifyBuf c j f = some s') :
    ∃ b b', (s.coll c)[j]? = some b ∧ f b = some b' ∧ s' = s.setColl ((s.coll c).set j b') c ∧
      s'.coll = Function.update s.coll c ((s.coll c).set j b') := by
  unfold modifyBuf at h
  split at h
  · cases h
  · next b hb =>
      obtain ⟨b', hf, rfl⟩ := Option.map_eq_some_iff.1 h
      exact ⟨b, b', hb, hf, rfl, coll_setColl (by simp)⟩

end Sys

/-! ## The collections after a call -/

section
variable [DecidableEq ι] {i : ι}

theorem afterFill_coll (v : ν) (n : Nat) : (s.afterFill i v n).coll =
    Function.update s.coll (.vec v) ((s.vecs v).dropLast n).list := Sys.coll_update_vec s v _

theorem afterSend_coll (d : δ) (n : Nat) : (s.afterSend i d n).coll =
    Function.update s.coll (.deque d) ((s.deques d).list.drop n) := Sys.coll_update_deque s d _

theorem afterRecv_coll (d : δ) (user : T) {n : Nat} (hn : n ≤ (s.link i).rx.used)
    (hroom : (s.deques d).len + n ≤ (s.deques d).capacity) : (s.afterRecv i d user n).coll =
    Function.update s.coll (.deque d) ((s.deques d).list ++ s.recvBufs i user n) := by
  have hlen : (s.recvBufs i user n).length = n := by
    rw [recvBufs_length, Nat.min_eq_left hn]
  obtain ⟨hl, -⟩ := (s.deques d).pushAll_eq (s.recvBufs i user n) (by rwa [hlen])
  rw [← hl]
  exact Sys.coll_update_deque s d _

theorem afterService_coll [Inhabited T] (v : ν) (n : Nat) : (s.afterService i v n).coll =
    Function.update s.coll (.vec v) ((s.vecs v).list ++
      ((s.link i).cq.entries.take n).map (compBuf (s.area.bufLen - afXdpReserved))) := by
  rw [← Vec.pushAll_list]
  exact Sys.coll_update_vec s v _

end

/-! ## Steps -/

variable [DecidableEq ι] [Inhabited T] {out : Out}

theorem step_kernel_inv {i : ι} {k : KAct} (h : step s (.kernel i k) = some (s', out)) :
    ∃ mem l hi, kernelStep s.area.bufLen s.mem (s.link i) (s.hist i) k = some (mem, l, hi) ∧
      s' = { s with
        mem := mem
        link := Function.update s.link i l
        hist := Function.update s.hist i hi } := by
  simp only [step, stepIn, Option.map_eq_some_iff, Prod.mk.injEq] at h
  obtain ⟨⟨mem, l, hi⟩, hk, rfl, -⟩ := h
  exact ⟨mem, l, hi, hk, rfl⟩

/-- A move takes a buffer out of its collection and inserts it. -/
theorem step_move_insert {c c' : Coll ν δ} {j k spare : Nat}
    (h : step s (.move c j c' k spare) = some (s', out)) :
    ∃ b, (s.coll c)[j]? = some b ∧
      (s.setColl ((s.coll c).eraseIdx j) c).insert k b spare c' = some s' := by
  simp only [step, stepIn] at h
  split at h
  · cases h
  · next b hb =>
      simp only [Option.map_eq_some_iff, Prod.mk.injEq] at h
      obtain ⟨t, ht, rfl, -⟩ := h
      exact ⟨b, hb, ht⟩

/-- The moved buffer is in the other collection afterwards, or elsewhere in the same one. -/
theorem step_move_inv {c c' : Coll ν δ} {j k spare : Nat}
    (h : step s (.move c j c' k spare) = some (s', out)) :
    ∃ b, (s.coll c)[j]? = some b ∧
      (∃ l, l.Perm (b :: Function.update s.coll c ((s.coll c).eraseIdx j) c') ∧
        s'.coll = Function.update (Function.update s.coll c ((s.coll c).eraseIdx j)) c' l) ∧
      s'.area = s.area ∧ s'.mem = s.mem ∧ s'.link = s.link ∧ s'.hist = s.hist := by
  obtain ⟨b, hb, ht⟩ := step_move_insert h
  obtain ⟨hcoll, ha, hm, hl, hh⟩ := Sys.insert_inv ht
  have hset : (s.setColl ((s.coll c).eraseIdx j) c).coll =
      Function.update s.coll c ((s.coll c).eraseIdx j) :=
    Sys.coll_setColl (List.length_eraseIdx_le _ _)
  rw [hset] at hcoll
  refine ⟨b, hb, ⟨_, ?_, hcoll⟩, ?_, ?_, ?_, ?_⟩
  · refine List.perm_middle.trans (List.Perm.cons b ?_)
    rw [List.take_append_drop]
  · rw [ha, Sys.setColl_area]
  · rw [hm, Sys.setColl_mem]
  · rw [hl, Sys.setColl_link]
  · rw [hh, Sys.setColl_hist]

/-- The other steps on a held buffer set its length, within the slice, or its user value. -/
theorem step_modify_inv {c : Coll ν δ} {j : Nat} {a : Act ι ν δ T}
    (ha : (∃ len, a = .setLen c j len) ∨ ∃ user, a = .setUser c j user)
    (h : step s a = some (s', out)) :
    ∃ b b', (s.coll c)[j]? = some b ∧ b'.addr = b.addr ∧ b'.data = b.data ∧
      (b'.len = b.len ∨ b'.len.toNat ≤ b.data.len) ∧
      s' = s.setColl ((s.coll c).set j b') c ∧
      s'.coll = Function.update s.coll c ((s.coll c).set j b') := by
  rcases ha with ⟨len, rfl⟩ | ⟨user, rfl⟩
  · simp only [step, stepIn, Option.map_eq_some_iff, Prod.mk.injEq] at h
    obtain ⟨t, ht, rfl, -⟩ := h
    obtain ⟨b, b', hb, hf, rfl, hcoll⟩ := Sys.modifyBuf_inv ht
    split at hf
    · next hok =>
        cases hf
        obtain ⟨rfl, hle⟩ := BufMmap.setLen_ok hok
        exact ⟨b, { b with len }, hb, rfl, rfl, .inr hle, rfl, hcoll⟩
    · cases hf
  · simp only [step, stepIn, Option.map_eq_some_iff, Prod.mk.injEq] at h
    obtain ⟨t, ht, rfl, -⟩ := h
    obtain ⟨b, b', hb, hf, rfl, hcoll⟩ := Sys.modifyBuf_inv ht
    cases hf
    exact ⟨b, { b with user }, hb, rfl, rfl, .inl rfl, rfl, hcoll⟩

/-- A write goes to the slice of a held buffer. -/
theorem step_write_inv {c : Coll ν δ} {j off : Nat} {byte : UInt8}
    (h : step s (.write c j off byte) = some (s', out)) :
    ∃ b, (s.coll c)[j]? = some b ∧ off < b.data.len ∧
      s' = { s with mem := Function.update s.mem (b.data.start + off) byte } := by
  simp only [step, stepIn] at h
  split at h
  · cases h
  · next b hb =>
      unfold BufMmap.writeData at h
      by_cases ho : off < b.data.len
      · rw [if_pos ho] at h
        cases h
        exact ⟨b, hb, ho, rfl⟩
      · rw [if_neg ho] at h
        cases h

/-- No step changes the area. -/
theorem step_area {a : Act ι ν δ T} (hlen : afXdpReserved ≤ s.area.bufLen)
    (h : step s a = some (s', out)) : s'.area = s.area := by
  cases a with
  | fill => obtain ⟨rfl, -⟩ := step_fill_inv h; rfl
  | tryRecv => obtain ⟨rfl, -⟩ := step_tryRecv_inv hlen h; rfl
  | trySend => obtain ⟨rfl, -⟩ := step_trySend_inv h; rfl
  | service => obtain ⟨rfl, -⟩ := step_service_inv hlen h; rfl
  | move => obtain ⟨-, -, -, ha, -⟩ := step_move_inv h; exact ha
  | setLen c j len =>
    obtain ⟨-, -, -, -, -, -, rfl, -⟩ := step_modify_inv (.inl ⟨len, rfl⟩) h
    exact Sys.setColl_area _ _
  | setUser c j user =>
    obtain ⟨-, -, -, -, -, -, rfl, -⟩ := step_modify_inv (.inr ⟨user, rfl⟩) h
    exact Sys.setColl_area _ _
  | write => obtain ⟨-, -, -, rfl⟩ := step_write_inv h; rfl
  | kernel => obtain ⟨-, -, -, -, rfl⟩ := step_kernel_inv h; rfl

end

end Afxdp
