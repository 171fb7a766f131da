import Classfile.Proofs.Attribute.Payload

/-! Computations that find every text that they need in the pool leave the pool as it is. -/
namespace Classfile

open ConstantPool

variable {α β : Type} {pool pool' : ConstantPool} {text : String} {a : Attribute}

/-- The pool has the text at some index. -/
def ConstantPool.Held (pool : ConstantPool) (text : String) : Prop := ∃ i, pool.text i = .ok text

theorem ConstantPool.Held.grows (h : pool.Held text) (hg : pool.Grows pool') : pool'.Held text := by
  obtain ⟨i, hi⟩ := h
  exact ⟨i, hg.text hi⟩

theorem ConstantPool.held_of_payload? [Payload α] {p : α}
    (h : pool.payload? α a = .ok (some p)) : pool.Held (Payload.name α) :=
  ⟨a.name, (payload?_eq_some h).1⟩

namespace PoolM

/-- The computation does not change the pool when it succeeds. -/
def Keeps (pool : ConstantPool) (x : PoolM α) : Prop :=
  ∀ ⦃a pool'⦄, x pool = .ok a pool' → pool' = pool

variable {x : PoolM α}

theorem keeps_pure (a : α) : Keeps pool (pure a) := by
  intro b pool' h
  exact (EStateM.pure_eq_ok.mp h).2.symm

theorem Keeps.bind {f : α → PoolM β} (hx : Keeps pool x) (hf : ∀ a, Keeps pool (f a)) :
    Keeps pool (x >>= f) := by
  intro b pool' h
  obtain ⟨a, mid, ha, h⟩ := EStateM.bind_eq_ok.mp h
  rw [hx ha] at h
  exact hf a h

theorem keeps_ask {question : ConstantPool → Except Fault α} : Keeps pool (ask question) := by
  intro a pool' h
  exact (ask_eq_ok.mp h).2.symm

/-- A text that is there is not added once more. -/
theorem addText_of_held (hp : pool.Faithful) (ht : pool.Held text) :
    ∃ i, addText text pool = .ok i pool := by
  obtain ⟨j, hj⟩ := ht
  obtain ⟨i, hi⟩ := hp.lookup_get (text_eq_ok.mp hj)
  refine ⟨i, ?_⟩
  rw [addText, add, hi]

theorem keeps_addText (hp : pool.Faithful) (ht : pool.Held text) : Keeps pool (addText text) := by
  intro i pool' h
  obtain ⟨j, hj⟩ := addText_of_held hp ht
  rw [hj] at h
  cases h
  rfl

variable [Payload α] {p : α}

theorem keeps_addAttribute (hp : pool.Faithful) (ht : pool.Held (Payload.name α)) :
    Keeps pool (addAttribute p) := by
  refine (keeps_addText hp ht).bind fun i => ?_
  cases Payload.write p with
  | ok info => exact keeps_pure _
  | error e =>
    intro a pool' h
    cases h

theorem keeps_addUnless {skip : Bool} (hp : pool.Faithful)
    (ht : skip = false → pool.Held (Payload.name α)) : Keeps pool (addUnless skip p) := by
  cases skip with
  | true => exact keeps_pure _
  | false => exact (keeps_addAttribute hp (ht rfl)).bind fun a => keeps_pure _

end PoolM

end Classfile
