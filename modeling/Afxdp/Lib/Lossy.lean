import Mathlib.Data.List.Infix

/-!
# Channels that lose

A channel that may lose what is sent, but neither repeats nor reorders it. `Delivers sent next got`
says that what came through is some of the first `next` that were sent, in their order. Whatever
comes next was sent at `next` or later (`Delivers.deliver`), and what is sent meanwhile does not
matter (`Delivers.send`). So what came through is a sublist of the sender's stream
(`Delivers.sublist`): it ascends in every order in which the stream does, and if its number is right
it is all of it.
-/

namespace Afxdp.Lossy

universe u

variable {α : Type u} {sent got : List α} {next : Nat}

/-- `got` is what came through of the first `next` of `sent`. -/
def Delivers (sent : List α) (next : Nat) (got : List α) : Prop := got.Sublist (sent.take next)

theorem Delivers.start (sent : List α) (next : Nat) : Delivers sent next [] := List.nil_sublist _

/-- What came through was sent, in this order. -/
theorem Delivers.sublist (h : Delivers sent next got) : got.Sublist sent :=
  List.Sublist.trans h (List.take_sublist next sent)

/-- More is sent. -/
theorem Delivers.send (h : Delivers sent next got) {sent' : List α} (hsent : sent <+: sent') :
    Delivers sent' next got :=
  List.Sublist.trans h (hsent.take next).sublist

/-- One of those from `next` on comes through. -/
theorem Delivers.deliver (h : Delivers sent next got) {c : Nat} {x : α} (hc : next ≤ c)
    (hx : sent[c]? = some x) : Delivers sent (c + 1) (got ++ [x]) := by
  have htake : sent.take (c + 1) = sent.take c ++ [x] := by
    rw [List.take_add_one, hx, Option.toList_some]
  rw [Delivers, htake]
  exact List.Sublist.append (List.Sublist.trans h (List.take_sublist_take_left hc))
    (List.Sublist.refl _)

end Afxdp.Lossy
