import Mathlib.Data.List.Induction
import Classfile.Proofs.Binary.Yields

/-!
What a reader takes from its input. The bytes and what is made of them belong together, and readers
in sequence take what each of them takes. So it can be said of every input that was read how it is
made up.
-/
namespace Classfile

namespace BigEndian

variable {bytes : List UInt8} {b : UInt8}

theorem unpack_concat : unpack (bytes ++ [b]) = unpack bytes * 256 + b.toNat := by
  simp [unpack]

theorem unpack_lt (bytes : List UInt8) : unpack bytes < 256 ^ bytes.length := by
  induction bytes using List.reverseRecOn with
  | nil => exact Nat.one_pos
  | append_singleton bytes b ih =>
    have hb := b.toNat_lt
    rw [unpack_concat, List.length_append, List.length_singleton, Nat.pow_succ]
    omega

/-- Packing undoes unpacking. -/
theorem pack_unpack (bytes : List UInt8) : pack bytes.length (unpack bytes) = bytes := by
  induction bytes using List.reverseRecOn with
  | nil => rfl
  | append_singleton bytes b ih =>
    have hb := b.toNat_lt
    have hd : (unpack bytes * 256 + b.toNat) / 256 = unpack bytes := by omega
    have hm : UInt8.ofNat (unpack bytes * 256 + b.toNat) = b := by
      rw [← UInt8.toNat_inj, UInt8.toNat_ofNat']
      omega
    rw [unpack_concat, List.length_append, List.length_singleton, pack, hd, ih, hm]

end BigEndian

namespace Reader

variable {α β : Type} {r : Reader α} {G : List UInt8 → α → Prop} {H : List UInt8 → β → Prop}
  {a : α} {e : FormatError}

/-- The reader takes a beginning of its input that goes with what it gives. -/
def Takes (r : Reader α) (G : List UInt8 → α → Prop) : Prop :=
  ∀ ⦃input a rest⦄, r input = .ok (a, rest) → ∃ piece, input = piece ++ rest ∧ G piece a

theorem takes_pure (h : G [] a) : (pure a : Reader α).Takes G := by
  intro input b rest hb
  cases hb
  exact ⟨[], rfl, h⟩

theorem takes_fail : (fail e : Reader α).Takes G := by
  intro input a rest h
  cases h

theorem Takes.bind {f : α → Reader β} (h : r.Takes G)
    (hf : ∀ piece a, G piece a → (f a).Takes fun more b => H (piece ++ more) b) :
    (r >>= f).Takes H := by
  intro input b rest hb
  change Reader.bind r f input = .ok (b, rest) at hb
  unfold Reader.bind at hb
  split at hb
  · rename_i a mid hr
    obtain ⟨piece, rfl, ha⟩ := h hr
    obtain ⟨more, rfl, hm⟩ := hf piece a ha hb
    exact ⟨piece ++ more, (List.append_assoc _ _ _).symm, hm⟩
  · cases hb

theorem Takes.map {f : α → β} (h : r.Takes G) (hf : ∀ piece a, G piece a → H piece (f a)) :
    (r >>= fun a => pure (f a)).Takes H := by
  refine h.bind fun piece a ha => takes_pure ?_
  rw [List.append_nil]
  exact hf piece a ha

theorem Takes.mono {G' : List UInt8 → α → Prop} (h : r.Takes G)
    (hg : ∀ piece a, G piece a → G' piece a) : r.Takes G' := by
  intro input a rest hr
  obtain ⟨piece, he, ha⟩ := h hr
  exact ⟨piece, he, hg piece a ha⟩

theorem Takes.ensures {P : α → Prop} (h : r.Takes G) (hp : ∀ piece a, G piece a → P a) :
    r.Ensures P := by
  intro input a rest hr
  obtain ⟨piece, -, hg⟩ := h hr
  exact hp piece a hg

theorem takes_u8 : u8.Takes fun piece n => piece = [n] := by
  intro input n rest h
  unfold u8 at h
  split at h
  · cases h
  · cases h
    exact ⟨[n], rfl, rfl⟩

theorem takes_bytes (count : Nat) :
    (bytes count).Takes fun piece front => piece = front ∧ front.length = count := by
  intro input front rest h
  have hl := ensures_bytes count h
  unfold bytes at h
  split at h
  rename_i taken left hs
  rw [List.splitAt_eq] at hs
  split at h
  · cases h
    cases hs
    exact ⟨_, (List.take_append_drop count input).symm, rfl, hl⟩
  · cases h

theorem takes_number (width : Nat) : (number width).Takes fun piece n =>
    piece = BigEndian.pack width n ∧ n < 256 ^ width := by
  refine (takes_bytes width).map ?_
  rintro piece front ⟨rfl, rfl⟩
  exact ⟨(BigEndian.pack_unpack piece).symm, BigEndian.unpack_lt piece⟩

theorem takes_u16 : u16.Takes fun piece n => piece = Writer.u16 n := by
  refine (takes_number 2).map ?_
  rintro piece n ⟨rfl, hn⟩
  rw [Writer.u16, UInt16.toNat_ofNat_of_lt' hn]

theorem takes_u32 : u32.Takes fun piece n => piece = Writer.u32 n := by
  refine (takes_number 4).map ?_
  rintro piece n ⟨rfl, hn⟩
  rw [Writer.u32, UInt32.toNat_ofNat_of_lt' hn]

theorem takes_u64 : u64.Takes fun piece n => piece = Writer.u64 n := by
  refine (takes_number 8).map ?_
  rintro piece n ⟨rfl, hn⟩
  rw [Writer.u64, UInt64.toNat_ofNat_of_lt' hn]

theorem takes_i32 : i32.Takes fun piece n => piece = Writer.i32 n := by
  refine takes_u32.map ?_
  rintro piece n rfl
  simp [Writer.i32]

theorem takes_i64 : i64.Takes fun piece n => piece = Writer.i64 n := by
  refine takes_u64.map ?_
  rintro piece n rfl
  simp [Writer.i64]

theorem Takes.timesOnto (h : r.Takes G) {count : Nat} {done : List α} :
    Takes (timesOnto r done count) fun piece xs => ∃ pieces new, piece = pieces.flatten ∧
      xs = done.reverse ++ new ∧ List.Forall₂ G pieces new ∧ new.length = count := by
  induction count generalizing done with
  | zero =>
    intro input xs rest hx
    cases hx
    exact ⟨[], rfl, [], [], rfl, (List.append_nil _).symm, .nil, rfl⟩
  | succ count ih =>
    intro input xs rest hx
    unfold Reader.timesOnto at hx
    split at hx
    · rename_i a mid hr
      obtain ⟨piece, rfl, ha⟩ := h hr
      obtain ⟨more, rfl, pieces, new, rfl, rfl, hf, rfl⟩ := ih hx
      refine ⟨piece ++ pieces.flatten, (List.append_assoc _ _ _).symm, piece :: pieces, a :: new,
        rfl, ?_, .cons ha hf, rfl⟩
      rw [List.reverse_cons, List.append_assoc, List.singleton_append]
    · cases hx

/-- The length of a sequence in two bytes, and then its elements, each with its own bytes. -/
def Counted (G : List UInt8 → α → Prop) (piece : List UInt8) (xs : List α) : Prop :=
  ∃ pieces, piece = BigEndian.pack 2 xs.length ++ pieces.flatten ∧ List.Forall₂ G pieces xs ∧
    xs.length ≤ 65535

theorem Counted.forall {P : α → Prop} {piece : List UInt8} {xs : List α} (h : Counted G piece xs)
    (hp : ∀ piece a, G piece a → P a) : ∀ a ∈ xs, P a := by
  obtain ⟨pieces, -, hf, -⟩ := h
  induction hf with
  | nil => simp
  | cons hg _ ih => exact List.forall_mem_cons.mpr ⟨hp _ _ hg, ih⟩

theorem Takes.counted (h : r.Takes G) : (counted r).Takes (Counted G) := by
  refine takes_u16.bind ?_
  rintro piece n rfl input xs rest hx
  obtain ⟨more, rfl, pieces, new, rfl, rfl, hf, hl⟩ := h.timesOnto hx
  have hn := n.toNat_lt
  refine ⟨_, rfl, pieces, ?_, hf, by omega⟩
  rw [hl]
  rfl

end Reader

namespace Writer

variable {α : Type} {write : α → Except FormatError (List UInt8)} {G : List UInt8 → α → Prop}
  {same : Prop} {piece : List UInt8} {a : α} {xs : List α}

/-- A value is written in no more bytes than it was read from, and in the same ones if these were
spelled as they are written. -/
def Rewrites (write : α → Except FormatError (List UInt8)) (same : Prop) (piece : List UInt8)
    (a : α) : Prop :=
  ∃ written, write a = .ok written ∧ written.length ≤ piece.length ∧ (same → written = piece)

theorem rewrites_of_eq (h : write a = .ok piece) : Rewrites write same piece a :=
  ⟨piece, h, Nat.le_refl _, fun _ => rfl⟩

theorem rewrites_each {pieces : List (List UInt8)} (hf : List.Forall₂ G pieces xs)
    (h : ∀ piece a, G piece a → Rewrites write same piece a) :
    Rewrites (each write) same pieces.flatten xs := by
  induction hf with
  | nil => exact rewrites_of_eq rfl
  | @cons piece a pieces xs hp _ ih =>
    obtain ⟨front, hw, hl, hs⟩ := h piece a hp
    obtain ⟨back, hb, hl', hs'⟩ := ih
    obtain ⟨written, hm, rfl⟩ := Except.map_eq_ok.mp hb
    refine ⟨front ++ written.flatten, ?_, ?_, ?_⟩
    · simp [each, hw, hm]
    · rw [List.flatten_cons, List.length_append, List.length_append]
      exact Nat.add_le_add hl hl'
    · intro he
      rw [List.flatten_cons, hs he, hs' he]

theorem rewrites_counted (hc : Reader.Counted G piece xs)
    (h : ∀ piece a, G piece a → Rewrites write same piece a) :
    Rewrites (counted write) same piece xs := by
  obtain ⟨pieces, rfl, hf, hx⟩ := hc
  obtain ⟨written, hw, hl, hs⟩ := rewrites_each hf h
  refine ⟨BigEndian.pack 2 xs.length ++ written, ?_, ?_, ?_⟩
  · rw [counted, if_neg (Nat.not_lt_of_le hx), hw]
    rfl
  · rw [List.length_append, List.length_append]
    exact Nat.add_le_add_left hl _
  · intro he
    rw [hs he]

theorem exists_pieces {bytes : List UInt8} (h : each write xs = .ok bytes)
    (hg : ∀ a ∈ xs, ∀ piece, write a = .ok piece → G piece a) :
    ∃ pieces, bytes = pieces.flatten ∧ List.Forall₂ G pieces xs := by
  obtain ⟨pieces, hp, rfl⟩ := Except.map_eq_ok.mp h
  refine ⟨pieces, rfl, ?_⟩
  rw [Except.mapM_eq_ok] at hp
  clear h
  induction hp with
  | nil => exact .nil
  | @cons a piece xs pieces hw _ ih =>
    exact .cons (hg a List.mem_cons_self piece hw) (ih fun x hx => hg x (List.mem_cons_of_mem _ hx))

theorem counted_of_write (h : counted write xs = .ok piece)
    (hg : ∀ a ∈ xs, ∀ piece, write a = .ok piece → G piece a) : Reader.Counted G piece xs := by
  by_cases hl : xs.length > 65535
  · simp [counted, hl] at h
  · simp only [counted, hl, if_false] at h
    obtain ⟨body, hb, rfl⟩ := Except.map_eq_ok.mp h
    obtain ⟨pieces, rfl, hf⟩ := exists_pieces hb hg
    exact ⟨pieces, rfl, hf, Nat.le_of_not_lt hl⟩

end Writer

end Classfile
