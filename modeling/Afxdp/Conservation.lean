import Afxdp.Environment
import Afxdp.Lib.Custody

/-!
# Buffers are neither lost nor duplicated

A buffer is the chunk of the area its address lies in. In every state a chunk is in some places:
the collections of the application, and the fill ring, the kernel's receive side, the Rx ring, the
Tx ring, the kernel's transmit side and the completion ring of every link (`Sys.chunks`). A step
either leaves every place as it is or moves chunks from one place to another (`step_shifts`), so
what `Afxdp.Tokens` says about moves holds of runs: in every state a run reaches from the buffers
that `MmapArea::new` returned, every chunk is in exactly one place, once (`run_sole_place`).
-/

namespace Afxdp

open Spsc (RingBuf)
open Run (run run_invariant)
open Tokens (Custody Moves Shifts)

/-! ## Places -/

/-- The places of a link: its four rings and the two sides of the kernel. -/
inductive Side
  | fill
  | krx
  | rx
  | tx
  | ktx
  | comp
deriving DecidableEq

/-- A place a buffer can be in. -/
inductive Place (ι ν δ : Type)
  | coll (c : Coll ν δ)
  | link (i : ι) (q : Side)
deriving DecidableEq

/-- The addresses in a place of a link. -/
def Link.addrs (l : Link) : Side → List Nat
  | .fill => l.fq.entries
  | .krx => l.krx
  | .rx => l.rx.entries.map XdpDesc.addr
  | .tx => l.tx.entries.map XdpDesc.addr
  | .ktx => l.ktx.map fun p => p.2.addr
  | .comp => l.cq.entries

/-- The chunks that addresses lie in. -/
def chunksOf (bufLen : Nat) (addrs : List Nat) : Multiset Nat := addrs.map (· / bufLen)

section
variable {ι ν δ T : Type} {s s' : Sys ι ν δ T}

/-- The chunks in a place. -/
def Sys.chunks (s : Sys ι ν δ T) : Place ι ν δ → Multiset Nat
  | .coll c => chunksOf s.area.bufLen ((s.coll c).map BufMmap.addr)
  | .link i q => chunksOf s.area.bufLen ((s.link i).addrs q)

theorem chunksOf_append (n : Nat) (as bs : List Nat) :
    chunksOf n (as ++ bs) = chunksOf n as + chunksOf n bs := by
  simp [chunksOf]

theorem chunksOf_perm (n : Nat) {as bs : List Nat} (h : as.Perm bs) :
    chunksOf n as = chunksOf n bs := Multiset.coe_eq_coe.2 (h.map _)

theorem chunksOf_cons (n a : Nat) (as : List Nat) :
    chunksOf n (a :: as) = chunksOf n as + chunksOf n [a] := by
  rw [← chunksOf_append]
  exact chunksOf_perm n (List.perm_append_singleton a as).symm

/-- Taking out the first `k` addresses. -/
theorem chunksOf_drop_take (n : Nat) (as : List Nat) (k : Nat) :
    chunksOf n as = chunksOf n (as.drop k) + chunksOf n (as.take k) := by
  rw [← chunksOf_append]
  refine chunksOf_perm n ?_
  exact (List.Perm.of_eq (List.take_append_drop k as).symm).trans List.perm_append_comm

/-- Taking out the `j`-th address. -/
theorem chunksOf_eraseIdx (n : Nat) {as : List Nat} {j a : Nat} (h : as[j]? = some a) :
    chunksOf n as = chunksOf n (as.eraseIdx j) + chunksOf n [a] := by
  obtain ⟨hj, rfl⟩ := List.getElem?_eq_some_iff.1 h
  rw [← chunksOf_cons]
  exact chunksOf_perm n (List.getElem_cons_eraseIdx_perm hj).symm

/-! ## Moves between places -/

variable [DecidableEq ι] [DecidableEq ν] [DecidableEq δ] {c c' : Coll ν δ} {i : ι} {q q' : Side}
  {l' : Link} {bs bs' : List (BufMmap T)} {m : Multiset Nat}

omit [DecidableEq ι] in
/-- The chunks of a changed collection. -/
theorem chunks_coll_self {f : Coll ν δ → List (BufMmap T)} (ha : s'.area = s.area)
    (hc : s'.coll = Function.update f c bs) :
    s'.chunks (.coll c) = chunksOf s.area.bufLen (bs.map BufMmap.addr) := by
  simp only [Sys.chunks, ha, hc, Function.update_self]

omit [DecidableEq ι] in
/-- The other collections keep their chunks. -/
theorem chunks_coll_of_ne (ha : s'.area = s.area) (hc : s'.coll = Function.update s.coll c bs)
    (hne : c' ≠ c) : s'.chunks (.coll c') = s.chunks (.coll c') := by
  simp only [Sys.chunks, ha, hc, Function.update_of_ne hne]

omit [DecidableEq ν] [DecidableEq δ] in
/-- The chunks of a changed link. -/
theorem chunks_link_self (ha : s'.area = s.area) (hl : s'.link = Function.update s.link i l') :
    s'.chunks (.link i q) = chunksOf s.area.bufLen (l'.addrs q) := by
  simp only [Sys.chunks, ha, hl, Function.update_self]

omit [DecidableEq ν] [DecidableEq δ] in
/-- The other links keep their chunks, and the changed one keeps those of its unchanged places. -/
theorem chunks_link_frame (ha : s'.area = s.area) (hl : s'.link = Function.update s.link i l')
    {j : ι} (hq : j = i → l'.addrs q = (s.link i).addrs q) :
    s'.chunks (.link j q) = s.chunks (.link j q) := by
  simp only [Sys.chunks, ha, hl]
  rcases eq_or_ne j i with rfl | hj
  · rw [Function.update_self, hq rfl]
  · rw [Function.update_of_ne hj]

/-- Chunks move from a collection to a place of a link. -/
theorem moves_coll_link (ha : s'.area = s.area) (hc : s'.coll = Function.update s.coll c bs)
    (hl : s'.link = Function.update s.link i l')
    (hsrc : chunksOf s.area.bufLen ((s.coll c).map BufMmap.addr) =
      chunksOf s.area.bufLen (bs.map BufMmap.addr) + m)
    (hdst : chunksOf s.area.bufLen (l'.addrs q) =
      chunksOf s.area.bufLen ((s.link i).addrs q) + m)
    (hframe : ∀ r, r ≠ q → l'.addrs r = (s.link i).addrs r) :
    Moves s.chunks s'.chunks (.coll c) (.link i q) m := by
  refine ⟨by simp, ?_, ?_, ?_⟩
  · rw [chunks_coll_self ha hc]
    exact hsrc
  · rw [chunks_link_self ha hl]
    exact hdst
  · rintro (e | ⟨j, r⟩) hp hq
    · exact chunks_coll_of_ne ha hc fun h => hp (congrArg _ h)
    · refine chunks_link_frame ha hl fun hj => hframe r fun hr => hq ?_
      rw [hj, hr]

/-- Chunks move from a place of a link to a collection. -/
theorem moves_link_coll (ha : s'.area = s.area) (hc : s'.coll = Function.update s.coll c bs)
    (hl : s'.link = Function.update s.link i l')
    (hsrc : chunksOf s.area.bufLen ((s.link i).addrs q) =
      chunksOf s.area.bufLen (l'.addrs q) + m)
    (hdst : chunksOf s.area.bufLen (bs.map BufMmap.addr) =
      chunksOf s.area.bufLen ((s.coll c).map BufMmap.addr) + m)
    (hframe : ∀ r, r ≠ q → l'.addrs r = (s.link i).addrs r) :
    Moves s.chunks s'.chunks (.link i q) (.coll c) m := by
  refine ⟨by simp, ?_, ?_, ?_⟩
  · rw [chunks_link_self ha hl]
    exact hsrc
  · rw [chunks_coll_self ha hc]
    exact hdst
  · rintro (e | ⟨j, r⟩) hp hq
    · exact chunks_coll_of_ne ha hc fun h => hq (congrArg _ h)
    · refine chunks_link_frame ha hl fun hj => hframe r fun hr => hp ?_
      rw [hj, hr]

omit [DecidableEq ν] [DecidableEq δ] in
/-- Chunks move between two places of a link. -/
theorem moves_link_link (q q' : Side) (hne : q ≠ q') (ha : s'.area = s.area) (hc : s'.coll = s.coll)
    (hl : s'.link = Function.update s.link i l')
    (hsrc : chunksOf s.area.bufLen ((s.link i).addrs q) =
      chunksOf s.area.bufLen (l'.addrs q) + m)
    (hdst : chunksOf s.area.bufLen (l'.addrs q') =
      chunksOf s.area.bufLen ((s.link i).addrs q') + m)
    (hframe : ∀ r, r ≠ q → r ≠ q' → l'.addrs r = (s.link i).addrs r) :
    Moves s.chunks s'.chunks (.link i q) (.link i q') m := by
  refine ⟨by simpa using hne, ?_, ?_, ?_⟩
  · rw [chunks_link_self ha hl]
    exact hsrc
  · rw [chunks_link_self ha hl]
    exact hdst
  · rintro (e | ⟨j, r⟩) hp hq
    · simp only [Sys.chunks, ha, hc]
    · refine chunks_link_frame ha hl fun hj => hframe r (fun hr => hp ?_) fun hr => hq ?_
      · rw [hj, hr]
      · rw [hj, hr]

omit [DecidableEq ι] in
/-- A chunk moves between two collections. -/
theorem moves_coll_coll (hne : c ≠ c') (ha : s'.area = s.area)
    (hc : s'.coll = Function.update (Function.update s.coll c bs) c' bs')
    (hl : s'.link = s.link)
    (hsrc : chunksOf s.area.bufLen ((s.coll c).map BufMmap.addr) =
      chunksOf s.area.bufLen (bs.map BufMmap.addr) + m)
    (hdst : chunksOf s.area.bufLen (bs'.map BufMmap.addr) =
      chunksOf s.area.bufLen ((s.coll c').map BufMmap.addr) + m) :
    Moves s.chunks s'.chunks (.coll c) (.coll c') m := by
  refine ⟨by simpa using hne, ?_, ?_, ?_⟩
  · simp only [Sys.chunks, ha, hc, Function.update_of_ne hne, Function.update_self]
    exact hsrc
  · rw [chunks_coll_self ha hc]
    exact hdst
  · rintro (e | ⟨j, r⟩) hp hq
    · have he : e ≠ c := fun h => hp (congrArg _ h)
      have he' : e ≠ c' := fun h => hq (congrArg _ h)
      simp only [Sys.chunks, ha, hc, Function.update_of_ne he', Function.update_of_ne he]
    · simp only [Sys.chunks, ha, hl]

omit [DecidableEq ι] [DecidableEq ν] [DecidableEq δ] in
/-- Places whose addresses stay the same, up to their order, keep their chunks. -/
theorem chunks_congr (ha : s'.area = s.area)
    (hc : ∀ c, ((s'.coll c).map BufMmap.addr).Perm ((s.coll c).map BufMmap.addr))
    (hl : ∀ i q, (s'.link i).addrs q = (s.link i).addrs q) : s'.chunks = s.chunks := by
  funext p
  cases p with
  | coll c =>
    simp only [Sys.chunks, ha]
    exact chunksOf_perm _ (hc c)
  | link i q => simp only [Sys.chunks, ha, hl i q]

/-! ## What a call does to the places -/

/-- `fill` moves buffers from the vector to the fill ring. -/
theorem afterFill_moves {v : ν} {n : Nat} (hfree : n ≤ (s.link i).fq.free) :
    ∃ m, Moves s.chunks (s.afterFill i v n).chunks (.coll (.vec v)) (.link i .fill) m := by
  have hlen : (((s.vecs v).list.reverse.take n).map BufMmap.addr).length ≤ (s.link i).fq.free := by
    simp only [List.length_map, List.length_take, List.length_reverse]
    omega
  -- the buffers that are popped are the last `n`
  have hsplit : (s.vecs v).list.reverse.take n =
      ((s.vecs v).list.drop ((s.vecs v).len - n)).reverse := by
    rw [List.take_reverse]
    rfl
  have hperm : (s.vecs v).list.Perm
      (((s.vecs v).dropLast n).list ++ (s.vecs v).list.reverse.take n) := by
    rw [hsplit]
    exact (List.Perm.of_eq (List.take_append_drop _ _).symm).trans
      (List.Perm.append_left _ (List.reverse_perm _).symm)
  refine ⟨chunksOf s.area.bufLen (((s.vecs v).list.reverse.take n).map BufMmap.addr),
    moves_coll_link rfl (afterFill_coll v n) rfl ?_ ?_ ?_⟩
  · rw [← chunksOf_append, ← List.map_append]
    exact chunksOf_perm _ (hperm.map _)
  · rw [← chunksOf_append]
    exact congrArg _ (RingBuf.publish_entries_const _ _ hlen)
  · rintro (_ | _) hr <;> first | rfl | exact absurd rfl hr

/-- The addresses in a Tx ring after buffers were sent. -/
theorem publish_storeDesc_addrs (r : RingBuf XdpDesc) (bs : List (BufMmap T))
    (h : bs.length ≤ r.free) :
    (r.publish (bs.map storeDesc)).entries.map XdpDesc.addr =
      r.entries.map XdpDesc.addr ++ bs.map BufMmap.addr := by
  rw [r.publish_entries _ (by simpa using h), List.map_append]
  refine congrArg _ (List.ext_getElem (by simp) ?_)
  intro k h1 h2
  simp only [List.length_map, List.length_range] at h1 h2
  simp [List.getElem?_eq_getElem h2, storeDesc]

/-- `try_send` moves buffers from the deque to the Tx ring. -/
theorem afterSend_moves {d : δ} {n : Nat} (hfree : n ≤ (s.link i).tx.free) :
    ∃ m, Moves s.chunks (s.afterSend i d n).chunks (.coll (.deque d)) (.link i .tx) m := by
  have hlen : ((s.deques d).list.take n).length ≤ (s.link i).tx.free := by
    rw [List.length_take]
    omega
  refine ⟨chunksOf s.area.bufLen (((s.deques d).list.take n).map BufMmap.addr),
    moves_coll_link rfl (afterSend_coll d n) rfl ?_ ?_ ?_⟩
  · rw [List.map_drop, List.map_take]
    exact chunksOf_drop_take _ _ _
  · rw [← chunksOf_append]
    exact congrArg _ (publish_storeDesc_addrs _ _ hlen)
  · rintro (_ | _) hr <;> first | rfl | exact absurd rfl hr

variable [Inhabited T]

/-- `service` moves buffers from the completion ring to the vector. -/
theorem afterService_moves {v : ν} {n : Nat} (hn : n ≤ (s.link i).cq.used) :
    ∃ m, Moves s.chunks (s.afterService i v n).chunks (.link i .comp) (.coll (.vec v)) m := by
  refine ⟨chunksOf s.area.bufLen ((s.link i).cq.entries.take n),
    moves_link_coll rfl (afterService_coll v n) rfl ?_ ?_ ?_⟩
  · show chunksOf _ (s.link i).cq.entries = chunksOf _ ((s.link i).cq.release n).entries + _
    rw [RingBuf.release_entries _ hn]
    exact chunksOf_drop_take _ _ _
  · rw [← chunksOf_append]
    refine congrArg _ ?_
    rw [List.map_append, List.map_map]
    exact congrArg _ (List.map_id _)
  · rintro (_ | _) hr <;> first | rfl | exact absurd rfl hr

omit [Inhabited T] in
/-- `try_recv` moves buffers from the Rx ring to the deque. -/
theorem afterRecv_moves (d : δ) (user : T) {n : Nat} (hn : n ≤ (s.link i).rx.used)
    (hroom : (s.deques d).len + n ≤ (s.deques d).capacity) :
    ∃ m, Moves s.chunks (s.afterRecv i d user n).chunks (.link i .rx) (.coll (.deque d)) m := by
  refine ⟨chunksOf s.area.bufLen (((s.link i).rx.entries.take n).map XdpDesc.addr),
    moves_link_coll rfl (afterRecv_coll d user hn hroom) rfl ?_ ?_ ?_⟩
  · show chunksOf _ ((s.link i).rx.entries.map _) =
      chunksOf _ (((s.link i).rx.release n).entries.map _) + _
    rw [RingBuf.release_entries _ hn, List.map_drop, List.map_take]
    exact chunksOf_drop_take _ _ _
  · rw [← chunksOf_append]
    refine congrArg _ ?_
    rw [List.map_append, Sys.recvBufs, List.map_map]
    rfl
  · rintro (_ | _) hr <;> first | rfl | exact absurd rfl hr

/-! ## What the kernel and the application do to the places -/

/-- A kernel step moves at most one buffer, between two places of its link. -/
theorem kernel_shifts {out : Out} {k : KAct} (h : step s (.kernel i k) = some (s', out)) :
    Shifts s.chunks s'.chunks := by
  obtain ⟨mem, l, hi, hk, rfl⟩ := step_kernel_inv h
  -- steps that do not touch the rings
  have hsame : (∀ q, l.addrs q = (s.link i).addrs q) → Shifts s.chunks (Sys.chunks { s with
      mem := mem, link := Function.update s.link i l, hist := Function.update s.hist i hi }) := by
    intro hq
    refine .inl (funext ?_)
    intro p
    cases p with
    | coll c => rfl
    | link j q =>
      refine chunks_link_frame ?_ ?_ fun _ => hq q
      · rfl
      · rfl
  cases k with
  | takeFill =>
    obtain ⟨hu, hr⟩ := kernelStep_takeFill hk
    cases hr
    refine .inr ⟨_, _, _, moves_link_link .fill .krx
      (m := chunksOf s.area.bufLen [(s.link i).fq.entry (s.link i).fq.cons])
      (by decide) rfl rfl rfl ?_ ?_ ?_⟩
    · show chunksOf _ (s.link i).fq.entries = _
      rw [RingBuf.entries_eq_cons _ hu, chunksOf_cons]
      rfl
    · rw [← chunksOf_append]
      rfl
    · rintro (_ | _) h1 h2 <;> first | rfl | exact absurd rfl h1 | exact absurd rfl h2
  | write j off byte =>
    obtain ⟨a, -, -, hr⟩ := kernelStep_write hk
    cases hr
    exact hsame fun _ => rfl
  | publish j o len options =>
    obtain ⟨a, ha, ho, -, hf, hr⟩ := kernelStep_publish hk
    cases hr
    refine .inr ⟨_, _, _, moves_link_link .krx .rx
      (m := chunksOf s.area.bufLen [a]) (by decide) rfl rfl rfl ?_ ?_ ?_⟩
    · exact chunksOf_eraseIdx _ ha
    · -- the packet is in the chunk that was handed over
      have hchunk : chunksOf s.area.bufLen [a / s.area.bufLen * s.area.bufLen + o] =
          chunksOf s.area.bufLen [a] := by
        simp only [chunksOf, List.map_cons, List.map_nil, Mem.cell_of_offset ho]
      rw [← hchunk, ← chunksOf_append]
      refine congrArg _ ?_
      show ((s.link i).rx.push _).entries.map _ = _
      rw [RingBuf.push_entries _ hf, List.map_append]
      rfl
    · rintro (_ | _) h1 h2 <;> first | rfl | exact absurd rfl h1 | exact absurd rfl h2
  | takeTx =>
    obtain ⟨hu, hr⟩ := kernelStep_takeTx hk
    cases hr
    refine .inr ⟨_, _, _, moves_link_link .tx .ktx
      (m := chunksOf s.area.bufLen [((s.link i).tx.entry (s.link i).tx.cons).addr])
      (by decide) rfl rfl rfl ?_ ?_ ?_⟩
    · show chunksOf _ ((s.link i).tx.entries.map _) = _
      rw [RingBuf.entries_eq_cons _ hu, List.map_cons, chunksOf_cons]
      rfl
    · rw [← chunksOf_append]
      refine congrArg _ ?_
      show ((s.link i).ktx ++ [_]).map _ = _
      rw [List.map_append]
      rfl
    · rintro (_ | _) h1 h2 <;> first | rfl | exact absurd rfl h1 | exact absurd rfl h2
  | readTx j =>
    obtain ⟨c, d, -, hr⟩ := kernelStep_readTx hk
    cases hr
    exact hsame fun _ => rfl
  | complete j =>
    obtain ⟨c, d, hd, hf, hr⟩ := kernelStep_complete hk
    cases hr
    refine .inr ⟨_, _, _, moves_link_link .ktx .comp
      (m := chunksOf s.area.bufLen [d.addr]) (by decide) rfl rfl rfl ?_ ?_ ?_⟩
    · show chunksOf _ ((s.link i).ktx.map _) = chunksOf _ (((s.link i).ktx.eraseIdx j).map _) + _
      rw [← List.eraseIdx_map]
      exact chunksOf_eraseIdx _ (by rw [List.getElem?_map, hd]; rfl)
    · rw [← chunksOf_append]
      exact congrArg _ (RingBuf.push_entries _ hf)
    · rintro (_ | _) h1 h2 <;> first | rfl | exact absurd rfl h1 | exact absurd rfl h2
  | setWake b =>
    have hr := kernelStep_setWake hk
    cases hr
    exact hsame fun _ => rfl

/-- Moving a buffer between or inside collections. -/
theorem move_shifts {out : Out} {j k spare : Nat}
    (h : step s (.move c j c' k spare) = some (s', out)) : Shifts s.chunks s'.chunks := by
  obtain ⟨b, hb, ⟨l, hperm, hcoll⟩, ha, -, hl, -⟩ := step_move_inv h
  have hsrc : chunksOf s.area.bufLen ((s.coll c).map BufMmap.addr) =
      chunksOf s.area.bufLen (((s.coll c).eraseIdx j).map BufMmap.addr) +
        chunksOf s.area.bufLen [b.addr] := by
    rw [← List.eraseIdx_map]
    exact chunksOf_eraseIdx _ (by rw [List.getElem?_map, hb]; rfl)
  rcases eq_or_ne c c' with rfl | hcc
  · obtain ⟨hj, rfl⟩ := List.getElem?_eq_some_iff.1 hb
    rw [Function.update_self] at hperm
    refine .inl (chunks_congr ha (fun e => ?_) fun i q => by rw [hl])
    rw [hcoll, Function.update_idem]
    rcases eq_or_ne e c with rfl | he
    · rw [Function.update_self]
      exact (hperm.trans (List.getElem_cons_eraseIdx_perm hj)).map _
    · rw [Function.update_of_ne he]
  · rw [Function.update_of_ne (Ne.symm hcc)] at hperm
    refine .inr ⟨_, _, _, moves_coll_coll hcc ha hcoll hl hsrc ?_⟩
    rw [chunksOf_perm _ (hperm.map _), List.map_cons, chunksOf_cons]

/-- Setting the length or the user value of a buffer. -/
theorem modify_chunks {out : Out} {j : Nat} {a : Act ι ν δ T}
    (ha : (∃ len, a = .setLen c j len) ∨ ∃ user, a = .setUser c j user)
    (h : step s a = some (s', out)) : s'.chunks = s.chunks := by
  obtain ⟨b, b', hb, haddr, -, -, rfl, hcoll⟩ := step_modify_inv ha h
  refine chunks_congr (Sys.setColl_area _ _) (fun e => ?_) fun i q => by rw [Sys.setColl_link]
  rw [hcoll]
  rcases eq_or_ne e c with rfl | he
  · obtain ⟨hj, rfl⟩ := List.getElem?_eq_some_iff.1 hb
    rw [Function.update_self, List.map_set, haddr, ← List.getElem_map BufMmap.addr
      (h := by simpa using hj), List.set_getElem_self]
  · rw [Function.update_of_ne he]

/-- Every step leaves the chunks in their places or moves some of them from one place to
another. -/
theorem step_shifts {out : Out} {a : Act ι ν δ T} (hlen : afXdpReserved < s.area.bufLen)
    (h : step s a = some (s', out)) : Shifts s.chunks s'.chunks := by
  have hlen' := Nat.le_of_lt hlen
  cases a with
  | fill i v batchSize granted =>
    obtain ⟨rfl, hret⟩ := step_fill_inv h
    obtain ⟨h1, h2⟩ := grantCount_le (s.link i).fq granted (min (s.vecs v).len batchSize)
    obtain ⟨m, hm⟩ := afterFill_moves (s := s) (i := i) (v := v) (n := out.ret)
      (by omega)
    exact .inr ⟨_, _, m, hm⟩
  | tryRecv i d batchSize user grant =>
    obtain ⟨rfl, hret, -⟩ := step_tryRecv_inv hlen' h
    obtain ⟨h1, h2⟩ := recvCount_le s i d batchSize grant
    obtain ⟨m, hm⟩ := afterRecv_moves (s := s) (i := i) d user (n := out.ret) (by omega) (by omega)
    exact .inr ⟨_, _, m, hm⟩
  | trySend i d batchSize granted send =>
    obtain ⟨rfl, hret, -⟩ := step_trySend_inv h
    obtain ⟨h1, h2⟩ := grantCount_le (s.link i).tx granted (min (s.deques d).len batchSize)
    rw [← sendCount, ← hret] at h1 h2
    obtain ⟨m, hm⟩ := afterSend_moves (s := s) (i := i) (d := d) (n := out.ret) h2
    exact .inr ⟨_, _, m, hm⟩
  | service i v batchSize grant =>
    obtain ⟨rfl, hret⟩ := step_service_inv hlen' h
    obtain ⟨m, hm⟩ := afterService_moves (s := s) (i := i) (v := v) (n := out.ret)
      (by rw [hret, peekCount]; omega)
    exact .inr ⟨_, _, m, hm⟩
  | move c j c' k spare => exact move_shifts h
  | setLen c j len => exact .inl (modify_chunks (.inl ⟨len, rfl⟩) h)
  | setUser c j user => exact .inl (modify_chunks (.inr ⟨user, rfl⟩) h)
  | write c j off byte =>
    obtain ⟨b, -, -, rfl⟩ := step_write_inv h
    exact .inl (chunks_congr rfl (fun _ => List.Perm.refl _) fun _ _ => rfl)
  | kernel i k => exact kernel_shifts h

/-! ## Runs -/

/-- Each of the chunks `S` is in exactly one place, once, and there are no other chunks. -/
structure Conserved (area : MmapArea) (S : Finset Nat) (s : Sys ι ν δ T) : Prop where
  areaEq : s.area = area
  custody : Custody s.chunks
  present : ∀ k, (∃ p, k ∈ s.chunks p) ↔ k ∈ S

omit [DecidableEq ν] [DecidableEq δ] [DecidableEq ι] [Inhabited T] in
/-- Nothing is in the places of a link that was never used. -/
theorem Link.Fresh.addrs {l : Link} (h : l.Fresh) (q : Side) : l.addrs q = [] := by
  cases q with
  | fill => exact l.fq.entries_eq_nil h.fq
  | krx => exact h.krx
  | rx => rw [Link.addrs, l.rx.entries_eq_nil h.rx, List.map_nil]
  | tx => rw [Link.addrs, l.tx.entries_eq_nil h.tx, List.map_nil]
  | ktx => rw [Link.addrs, h.ktx, List.map_nil]
  | comp => exact l.cq.entries_eq_nil h.cq

/-- The chunks of the buffers of a vector. -/
def Vec.chunkSet (bufLen : Nat) (w : Vec (BufMmap T)) : Finset Nat :=
  (chunksOf bufLen (w.list.map BufMmap.addr)).toFinset

omit [DecidableEq ν] [DecidableEq δ] [DecidableEq ι] in
/-- The `k`-th buffer of the pool is in chunk `k`. -/
theorem chunksOf_chunkVec {bufNum bufLen : Nat} (hlen : afXdpReserved < bufLen) :
    chunksOf bufLen ((MmapArea.chunkVec (T := T) bufNum bufLen).list.map BufMmap.addr) =
      (List.range bufNum : Multiset Nat) := by
  have hchunk : ∀ k, (k * bufLen + afXdpReserved) / bufLen = k := fun _ =>
    Mem.cell_of_offset hlen
  simp [chunksOf, MmapArea.chunkVec, MmapArea.chunkBuf, Function.comp_def, hchunk]

omit [DecidableEq ν] [DecidableEq δ] [DecidableEq ι] in
/-- The buffers of a vector of buffers of the pool are in different chunks. -/
theorem nodup_chunks {bufNum bufLen : Nat} (hlen : afXdpReserved < bufLen)
    {w : Vec (BufMmap T)} (hw : w.list.Subperm (MmapArea.chunkVec bufNum bufLen).list) :
    (chunksOf bufLen (w.list.map BufMmap.addr)).Nodup := by
  have hpool : (chunksOf bufLen
      ((MmapArea.chunkVec (T := T) bufNum bufLen).list.map BufMmap.addr)).Nodup := by
    rw [chunksOf_chunkVec hlen]
    exact Multiset.coe_nodup.2 List.nodup_range
  obtain ⟨l, hperm, hsub⟩ := hw
  rw [chunksOf_perm bufLen (hperm.map BufMmap.addr).symm]
  exact Multiset.coe_nodup.2
    ((Multiset.coe_nodup.1 hpool).sublist ((hsub.map BufMmap.addr).map (· / bufLen)))

omit [DecidableEq ν] [DecidableEq δ] [DecidableEq ι] in
/-- At the start the buffers are in the vector, and nothing is anywhere else. -/
theorem Conserved.start {bufNum bufLen : Nat} {v₀ : ν} {w : Vec (BufMmap T)}
    (hlen : afXdpReserved < bufLen)
    (hw : w.list.Subperm (MmapArea.chunkVec bufNum bufLen).list)
    (h : s.Start ⟨bufNum, bufLen⟩ v₀ w) :
    Conserved ⟨bufNum, bufLen⟩ (w.chunkSet bufLen) s := by
  have hpool : s.chunks (.coll (.vec v₀)) = chunksOf bufLen (w.list.map BufMmap.addr) := by
    simp only [Sys.chunks, Sys.coll, h.vec, h.area]
  have hrest : ∀ p, p ≠ .coll (.vec v₀) → s.chunks p = 0 := by
    rintro ((v | d) | ⟨i, q⟩) hp
    · have hv : v ≠ v₀ := fun hv => hp (hv ▸ rfl)
      simp [Sys.chunks, Sys.coll, h.vecs v hv, chunksOf]
    · simp [Sys.chunks, Sys.coll, h.deques d, chunksOf]
    · simp [Sys.chunks, (h.link i).addrs q, chunksOf]
  have honly : ∀ p k, k ∈ s.chunks p → p = .coll (.vec v₀) := by
    intro p k hk
    by_contra hp
    rw [hrest p hp] at hk
    exact Multiset.notMem_zero k hk
  refine ⟨h.area, ⟨?_, ?_⟩, fun k => ⟨?_, ?_⟩⟩
  · intro p
    by_cases hp : p = .coll (.vec v₀)
    · rw [hp, hpool]
      exact nodup_chunks hlen hw
    · rw [hrest p hp]
      exact Multiset.nodup_zero
  · intro p q k hp hq
    rw [honly p k hp, honly q k hq]
  · rintro ⟨p, hk⟩
    rw [honly p k hk, hpool] at hk
    exact Multiset.mem_toFinset.2 hk
  · intro hk
    exact ⟨.coll (.vec v₀), by rw [hpool]; exact Multiset.mem_toFinset.1 hk⟩

theorem Conserved.step {area : MmapArea} {S : Finset Nat} {out : Out} {a : Act ι ν δ T}
    (hlen : afXdpReserved < area.bufLen) (hs : Conserved area S s)
    (h : Afxdp.step s a = some (s', out)) : Conserved area S s' := by
  have hlen' : afXdpReserved < s.area.bufLen := by rwa [hs.areaEq]
  have hshift := step_shifts hlen' h
  exact ⟨(step_area (Nat.le_of_lt hlen') h).trans hs.areaEq, hshift.custody hs.custody,
    fun k => (hshift.present k).trans (hs.present k)⟩

/-- In every state a run reaches from a state with conserved chunks, they are conserved. -/
theorem Conserved.run {area : MmapArea} {S : Finset Nat} {as : List (Act ι ν δ T)}
    {outs : List Out} (hlen : afXdpReserved < area.bufLen) (hs : Conserved area S s)
    (h : Run.run Afxdp.step s as = some (s', outs)) : Conserved area S s' :=
  run_invariant (I := Conserved area S) (Q := fun _ => True)
    (fun _ _ _ _ _ hi hstep => hi.step hlen hstep) hs (fun _ _ => trivial) h

/-- Take an area that `new` made and any run over it, of the calls on any number of links, of the
kernel on these links and of the application on its collections. In the state it reaches every
chunk is in one place exactly once, and in no other place. -/
theorem run_sole_place {p : Profile} {mmap : Nat → Nat → Bool} {bufNum bufLen : Nat}
    {options : MmapAreaOptions} {area : MmapArea} {w : Vec (BufMmap T)} {s₀ : Sys ι ν δ T} {v₀ : ν}
    {as : List (Act ι ν δ T)} {outs : List Out} (hlen : afXdpReserved < bufLen)
    (hsize : bufNum * bufLen < 2 ^ 64)
    (hnew : MmapArea.new p mmap bufNum bufLen options = .ok (.ok (area, w)))
    (hs : s₀.Start area v₀ w) (hrun : run step s₀ as = some (s, outs)) {k : Nat}
    (hk : k < bufNum) :
    ∃ p, (s.chunks p).count k = 1 ∧ ∀ q, q ≠ p → (s.chunks q).count k = 0 := by
  obtain ⟨rfl, rfl⟩ := MmapArea.new_inv hsize (Nat.le_of_lt hlen) hnew
  have hc := (Conserved.start hlen (List.Subperm.refl _) hs).run hlen hrun
  have hkS : k ∈ (MmapArea.chunkVec (T := T) bufNum bufLen).chunkSet bufLen := by
    rw [Vec.chunkSet, chunksOf_chunkVec hlen, Multiset.mem_toFinset]
    exact Multiset.mem_coe.2 (List.mem_range.2 hk)
  obtain ⟨p, hp⟩ := (hc.present k).2 hkS
  exact ⟨p, hc.custody.sole hp⟩

end

/-- A packet on its way through a link: received into one of two buffers, sent back, completed. -/
def roundTrip : List (Act Unit Unit Unit Unit) :=
  [.fill () () 1 true, .kernel () .takeFill, .kernel () (.publish 0 256 64 0),
    .tryRecv () () 8 () 1, .trySend () () 8 true .sent, .kernel () .takeTx,
    .kernel () (.complete 0), .service () () 8 1]

theorem roundTrip_isSome :
    (run step (Sys.init ⟨2, 2048⟩ () (MmapArea.chunkVec 2 2048) 4) roundTrip).isSome := by
  decide +kernel

theorem run_sole_place_roundTrip :
    ∃ s outs, run step (Sys.init ⟨2, 2048⟩ () (MmapArea.chunkVec 2 2048) 4) roundTrip =
        some (s, outs) ∧
      ∃ p, (s.chunks p).count 1 = 1 ∧ ∀ q, q ≠ p → (s.chunks q).count 1 = 0 := by
  have hnew : MmapArea.new (T := Unit) .release (fun _ _ => true) 2 2048 {} =
      .ok (.ok (⟨2, 2048⟩, MmapArea.chunkVec 2 2048)) :=
    MmapArea.new_ok (by decide) (by decide) rfl
  obtain ⟨⟨s, outs⟩, hrun⟩ := Option.isSome_iff_exists.1 roundTrip_isSome
  exact ⟨s, outs, hrun,
    run_sole_place (by decide) (by decide) hnew (Sys.init_start _ _ _ _) hrun (by decide)⟩

end Afxdp
