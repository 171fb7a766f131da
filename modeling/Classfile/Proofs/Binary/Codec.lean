import Classfile.Proofs.Binary.Takes

/-!
Readers and writers that belong together. What is read is what the bytes are written from again, and
what is written is read again, for all values within some bounds. So bytes and values determine each
other, and this carries over to sequences and to values in another form.
-/
namespace Classfile

open Reader

variable {α β : Type} {r : Reader α} {write : α → Except FormatError (List UInt8)}
  {B C : α → Prop} {bytes : List UInt8} {a : α}

namespace Writer

theorem exists_counted {xs : List α} (hl : xs.length ≤ 65535)
    (h : ∀ a ∈ xs, ∃ piece, write a = .ok piece) : ∃ bytes, counted write xs = .ok bytes := by
  obtain ⟨pieces, hp⟩ := Except.exists_mapM h
  refine ⟨BigEndian.pack 2 xs.length ++ pieces.flatten, ?_⟩
  rw [counted, if_neg (Nat.not_lt.mpr hl), each, hp]
  rfl

theorem each_of_pieces {pieces : List (List UInt8)} {xs : List α}
    (h : List.Forall₂ (fun piece a => write a = .ok piece) pieces xs) :
    each write xs = .ok pieces.flatten := by
  rw [each, Except.mapM_eq_ok.mpr h.flip]
  rfl

theorem counted_of_counted {xs : List α}
    (h : Counted (fun piece a => write a = .ok piece) bytes xs) :
    counted write xs = .ok bytes := by
  obtain ⟨pieces, rfl, hf, hl⟩ := h
  rw [counted, if_neg (Nat.not_lt.mpr hl), each_of_pieces hf]
  rfl

end Writer

theorem forall_of_pieces {G : List UInt8 → α → Prop} {pieces : List (List UInt8)} {xs : List α}
    (h : List.Forall₂ (fun piece a => G piece a ∧ B a) pieces xs) :
    List.Forall₂ G pieces xs ∧ ∀ a ∈ xs, B a := by
  have hs : List.Forall₂ (fun a piece => B a ∧ G piece a) xs pieces :=
    (h.imp fun _ _ hp => hp.symm).flip
  obtain ⟨hb, hg⟩ := (List.forall₂_and_left xs pieces).mp hs
  exact ⟨hg.flip, hb⟩

/-- The reader takes the bytes that the writer gives, and gives values within the bounds. Every
value within the bounds is written, and read again whatever follows. -/
structure Codec (r : Reader α) (write : α → Except FormatError (List UInt8)) (B : α → Prop) :
    Prop where
  takes : r.Takes fun piece a => write a = .ok piece ∧ B a
  writes : ∀ a, B a → ∃ bytes, write a = .ok bytes
  yields : ∀ a bytes, B a → write a = .ok bytes → r.Yields bytes a

namespace Codec

theorem congr (h : Codec r write B) (hb : ∀ a, B a ↔ C a) : Codec r write C := by
  rwa [← funext fun a => propext (hb a)]

/-- The same values in another form. -/
theorem map {make : α → β} {part : β → α} (h : Codec r write B) (hm : ∀ b, make (part b) = b)
    (hp : ∀ a, part (make a) = a) :
    Codec (r >>= fun a => pure (make a)) (fun b => write (part b)) fun b => B (part b) where
  takes := h.takes.map fun piece a ha => by rwa [hp]
  writes b hb := h.writes (part b) hb
  yields b bytes hb hw := (h.yields (part b) bytes hb hw).map (hm b)

/-- Sequences behind their count. -/
theorem counted (h : Codec r write B) : Codec (Reader.counted r) (Writer.counted write)
    fun xs => xs.length ≤ 65535 ∧ ∀ a ∈ xs, B a where
  takes input xs rest hr := by
    obtain ⟨_, rfl, pieces, rfl, hp, hl⟩ := h.takes.counted hr
    obtain ⟨hw, hb⟩ := forall_of_pieces hp
    exact ⟨_, rfl, Writer.counted_of_counted ⟨pieces, rfl, hw, hl⟩, hl, hb⟩
  writes xs hb := Writer.exists_counted hb.1 fun a ha => h.writes a (hb.2 a ha)
  yields xs bytes hb hw := yields_counted (fun a ha piece => h.yields a piece (hb.2 a ha)) hw

/-- What was read from all of some bytes is written as these. -/
theorem write_of_read (h : Codec r write B) (hr : r bytes = .ok (a, [])) :
    write a = .ok bytes ∧ B a := by
  obtain ⟨piece, he, ha⟩ := h.takes hr
  rw [List.append_nil] at he
  exact he ▸ ha

end Codec

end Classfile
