import Classfile.Proofs.Attribute.Payload
import Classfile.Proofs.Pool.Access

/-!
What a pool answers it keeps answering when it has grown. So does any computation that only asks the
pool: whatever it gives with the first pool, it gives with the second one.
-/
namespace Except

variable {ε α β σ : Type} {x y : Except ε α}

/-- Whatever the first computation gives, the second one gives, too. -/
def Within (x y : Except ε α) : Prop := ∀ ⦃a⦄, x = .ok a → y = .ok a

theorem Within.refl (x : Except ε α) : x.Within x := fun _ h => h

theorem within_error (e : ε) : (.error e : Except ε α).Within y := nofun

theorem Within.bind {f g : α → Except ε β} (h : x.Within y) (hf : ∀ a, (f a).Within (g a)) :
    (x >>= f).Within (y >>= g) := by
  intro b hb
  obtain ⟨a, ha, hb⟩ := bind_eq_ok.mp hb
  exact bind_eq_ok.mpr ⟨a, h ha, hf a hb⟩

theorem Within.discard (h : x.Within y) :
    (Functor.discard x : Except ε PUnit).Within (Functor.discard y) := by
  intro _ hx
  obtain ⟨a, ha⟩ := discard_eq_ok.mp hx
  exact discard_eq_ok.mpr ⟨a, h ha⟩

theorem within_mapM {f g : α → Except ε β} (hf : ∀ a, (f a).Within (g a)) (xs : List α) :
    (xs.mapM f).Within (xs.mapM g) :=
  fun _ h => mapM_eq_ok.mpr ((mapM_eq_ok.mp h).imp fun a _ ha => hf a ha)

theorem within_forM {f g : α → Except ε PUnit} (hf : ∀ a, (f a).Within (g a)) (xs : List α) :
    (xs.forM f).Within (xs.forM g) :=
  fun _ h => forM_eq_ok.mpr fun a ha => hf a (forM_eq_ok.mp h a ha)

theorem within_foldlM {f g : σ → α → Except ε σ} (hf : ∀ s a, (f s a).Within (g s a))
    (xs : List α) (s : σ) : (xs.foldlM f s).Within (xs.foldlM g s) := by
  induction xs generalizing s with
  | nil => exact .refl _
  | cons a xs ih =>
    rw [List.foldlM_cons, List.foldlM_cons]
    exact (hf s a).bind ih

theorem within_optionMapM {f g : α → Except ε β} (hf : ∀ a, (f a).Within (g a)) (o : Option α) :
    (o.mapM f).Within (o.mapM g) := by
  cases o with
  | none => exact .refl _
  | some a => exact (hf a).bind fun _ => .refl _

end Except

namespace Classfile

open Except

variable {pool pool' : ConstantPool}

namespace ConstantPool.Grows

theorem within_get (h : pool.Grows pool') (i : ConstantIndex) :
    (pool.get i).Within (pool'.get i) :=
  fun _ hc => get_eq_ok.mpr (h (get_eq_ok.mp hc))

theorem within_text (h : pool.Grows pool') (i : ConstantIndex) :
    (pool.text i).Within (pool'.text i) := fun _ => h.text

theorem within_typeName (h : pool.Grows pool') (i : ConstantIndex) :
    (pool.typeName i).Within (pool'.typeName i) := fun _ => h.typeName

theorem within_checked (h : pool.Grows pool') (role : Role) (i : ConstantIndex) :
    (pool.checked role i).Within (pool'.checked role i) := fun _ => h.checked

theorem within_payload? (h : pool.Grows pool') (α : Type) [Payload α] (a : Attribute) :
    (pool.payload? α a).Within (pool'.payload? α a) :=
  (h.within_text a.name).bind fun _ => .refl _

end ConstantPool.Grows

end Classfile
