import Classfile.Binary.Reader
import Classfile.Binary.Writer
import Classfile.Proofs.Except
import Mathlib.Algebra.GroupWithZero.Nat

/-!
Readers that give a value for some bytes, whatever bytes follow. Readers in sequence give what each
of them gives, so a composite format is read back as soon as its parts are. What holds for all that
the parts can give holds for all that the whole can give.
-/
namespace Classfile

namespace Reader

variable {α β : Type} {r : Reader α} {bytes more : List UInt8} {a : α} {b : β}

/-- From a beginning `bytes` of its input the reader takes exactly these bytes, and gives `a`. -/
def Yields (r : Reader α) (bytes : List UInt8) (a : α) : Prop :=
  ∀ rest, r (bytes ++ rest) = .ok (a, rest)

theorem yields_pure (a : α) : (pure a : Reader α).Yields [] a := fun _ => rfl

theorem Yields.bind {f : α → Reader β} (h : r.Yields bytes a) (hf : (f a).Yields more b) :
    (r >>= f).Yields (bytes ++ more) b := by
  intro rest
  have hr : r (bytes ++ (more ++ rest)) = .ok (a, more ++ rest) := h (more ++ rest)
  show Reader.bind r f (bytes ++ more ++ rest) = .ok (b, rest)
  rw [List.append_assoc, Reader.bind, hr]
  exact hf rest

/-- The second reader takes nothing. -/
theorem Yields.bind_nil {f : α → Reader β} (h : r.Yields bytes a) (hf : (f a).Yields [] b) :
    (r >>= f).Yields bytes b := by
  have hb := h.bind hf
  rwa [List.append_nil] at hb

theorem Yields.map {f : α → β} (h : r.Yields bytes a) (hf : f a = b) :
    (r >>= fun x => pure (f x)).Yields bytes b :=
  h.bind_nil (hf ▸ yields_pure (f a))

theorem yields_u8 (n : UInt8) : u8.Yields [n] n := fun _ => rfl

theorem yields_bytes (front : List UInt8) : (Reader.bytes front.length).Yields front front := by
  intro rest
  simp [Reader.bytes]

theorem yields_number (width n : Nat) (h : n < 256 ^ width) :
    (number width).Yields (BigEndian.pack width n) n := by
  have hb := yields_bytes (BigEndian.pack width n)
  rw [BigEndian.length_pack] at hb
  refine hb.map ?_
  rw [BigEndian.unpack_pack]
  exact Nat.mod_eq_of_lt h

theorem yields_i8 (n : Int8) : i8.Yields (Writer.i8 n) n :=
  (yields_u8 n.toUInt8).map (by simp)

theorem yields_u16 (n : UInt16) : u16.Yields (Writer.u16 n) n :=
  (yields_number 2 n.toNat n.toNat_lt).map (by simp)

theorem yields_i16 (n : Int16) : i16.Yields (Writer.i16 n) n :=
  (yields_u16 n.toUInt16).map (by simp)

theorem yields_u32 (n : UInt32) : u32.Yields (Writer.u32 n) n :=
  (yields_number 4 n.toNat n.toNat_lt).map (by simp)

theorem yields_i32 (n : Int32) : i32.Yields (Writer.i32 n) n :=
  (yields_u32 n.toUInt32).map (by simp)

theorem yields_u64 (n : UInt64) : u64.Yields (Writer.u64 n) n :=
  (yields_number 8 n.toNat n.toNat_lt).map (by simp)

theorem yields_i64 (n : Int64) : i64.Yields (Writer.i64 n) n :=
  (yields_u64 n.toUInt64).map (by simp)

/-- A count is read back if it has room in its two bytes. -/
theorem yields_count {n : Nat} (h : n ≤ 65535) :
    u16.Yields (BigEndian.pack 2 n) (UInt16.ofNat n) :=
  (yields_number 2 n (by omega)).map rfl

theorem yields_timesOnto {pieces : List (List UInt8)} {xs : List α}
    (h : List.Forall₂ (fun piece x => r.Yields piece x) pieces xs) (done : List α) :
    Yields (timesOnto r done xs.length) pieces.flatten (done.reverse ++ xs) := by
  induction h generalizing done with
  | nil =>
    intro rest
    simp [timesOnto]
  | @cons piece x pieces xs hx _ ih =>
    intro rest
    have hi := ih (x :: done) rest
    simp only [List.reverse_cons, List.append_assoc, List.singleton_append] at hi
    simp only [List.length_cons, timesOnto, List.flatten_cons, List.append_assoc]
    rw [hx (pieces.flatten ++ rest)]
    exact hi

theorem yields_times {pieces : List (List UInt8)} {xs : List α}
    (h : List.Forall₂ (fun piece x => r.Yields piece x) pieces xs) :
    (times xs.length r).Yields pieces.flatten xs := yields_timesOnto h []

theorem yields_times_map {γ : Type} {piece : γ → List UInt8} {value : γ → α}
    (h : ∀ c, r.Yields (piece c) (value c)) (cs : List γ) :
    (times cs.length r).Yields (cs.map piece).flatten (cs.map value) := by
  have ht : List.Forall₂ (fun piece x => r.Yields piece x) (cs.map piece) (cs.map value) := by
    rw [List.forall₂_map_left_iff, List.forall₂_map_right_iff, List.forall₂_same]
    exact fun c _ => h c
  have hl := yields_times ht
  rwa [List.length_map] at hl

variable {write : α → Except FormatError (List UInt8)} {xs : List α}

theorem yields_each (hx : ∀ x ∈ xs, ∀ b, write x = .ok b → r.Yields b x)
    (h : Writer.each write xs = .ok bytes) : (times xs.length r).Yields bytes xs := by
  obtain ⟨pieces, hp, he⟩ := Except.bind_eq_ok.mp h
  cases he
  apply yields_times
  clear h
  rw [Except.mapM_eq_ok] at hp
  induction hp with
  | nil => exact .nil
  | @cons x piece xs pieces hw _ ih =>
    exact .cons (hx x (by simp) piece hw) (ih fun y hy => hx y (by simp [hy]))

/-- A sequence behind its length is read back if each of its elements is. -/
theorem yields_counted (hx : ∀ x ∈ xs, ∀ b, write x = .ok b → r.Yields b x)
    (h : Writer.counted write xs = .ok bytes) : (counted r).Yields bytes xs := by
  by_cases hl : xs.length > 65535
  · simp [Writer.counted, hl] at h
  · simp only [Writer.counted, hl, if_false] at h
    obtain ⟨body, hb, rfl⟩ := Except.map_eq_ok.mp h
    have hn : (UInt16.ofNat xs.length).toNat = xs.length :=
      UInt16.toNat_ofNat_of_lt' (Nat.lt_succ_of_le (Nat.le_of_not_lt hl))
    refine (yields_count (by omega)).bind ?_
    rw [hn]
    exact yields_each hx hb

/-! ### What holds for everything that is read -/

variable {P : α → Prop} {Q : β → Prop}

/-- Whatever the reader gives has the property. -/
def Ensures (r : Reader α) (P : α → Prop) : Prop :=
  ∀ ⦃input a rest⦄, r input = .ok (a, rest) → P a

theorem ensures_pure (h : P a) : (pure a : Reader α).Ensures P := by
  intro input b rest hb
  cases hb
  exact h

theorem Ensures.bind {f : α → Reader β} (h : r.Ensures P) (hf : ∀ a, P a → (f a).Ensures Q) :
    (r >>= f).Ensures Q := by
  intro input b rest hb
  change Reader.bind r f input = .ok (b, rest) at hb
  unfold Reader.bind at hb
  split at hb
  · rename_i hr
    exact hf _ (h hr) hb
  · cases hb

theorem ensures_true : r.Ensures fun _ => True := fun _ _ _ _ => trivial

theorem ensures_bytes (count : Nat) : (Reader.bytes count).Ensures (·.length = count) := by
  intro input front rest h
  unfold Reader.bytes at h
  split at h
  split at h
  · cases h
    assumption
  · cases h

theorem Ensures.timesOnto (h : r.Ensures P) {count : Nat} {done : List α} (hd : ∀ x ∈ done, P x) :
    Ensures (timesOnto r done count) fun xs => ∀ x ∈ xs, P x := by
  induction count generalizing done with
  | zero =>
    intro input xs rest hx
    cases hx
    simpa using hd
  | succ count ih =>
    intro input xs rest hx
    unfold Reader.timesOnto at hx
    split at hx
    · rename_i hr
      refine ih ?_ hx
      intro x hm
      rcases List.mem_cons.mp hm with rfl | hm
      · exact h hr
      · exact hd x hm
    · cases hx

theorem ensures_length_timesOnto {count : Nat} {done : List α} :
    Ensures (timesOnto r done count) fun xs => xs.length = done.length + count := by
  induction count generalizing done with
  | zero =>
    intro input xs rest hx
    cases hx
    exact List.length_reverse
  | succ count ih =>
    intro input xs rest hx
    unfold Reader.timesOnto at hx
    split at hx
    · rw [ih hx, List.length_cons, Nat.succ_add_eq_add_succ]
    · cases hx

theorem ensures_length_times {count : Nat} : (times count r).Ensures (·.length = count) := by
  intro input xs rest hx
  rw [ensures_length_timesOnto hx, List.length_nil, Nat.zero_add]

theorem Ensures.counted (h : r.Ensures P) : (counted r).Ensures fun xs => ∀ x ∈ xs, P x :=
  ensures_true.bind fun _ _ => h.timesOnto (by simp)

end Reader

end Classfile
