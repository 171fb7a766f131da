import Classfile.Proofs.Binary.Takes

/-!
Readers that know where what they read ends. Of the bytes that were taken none can be left out, or
the reader runs out of input, and whatever is put behind them stays there. A format in sequence is
of this kind as soon as its parts are, and however later parts depend on earlier ones.
-/
namespace Classfile.Reader

variable {α β : Type} {r : Reader α} {piece more : List UInt8} {a : α}

/-- Every proper beginning of the bytes is too short. -/
def Starves (r : Reader α) (piece : List UInt8) : Prop :=
  ∀ front back, piece = front ++ back → back ≠ [] → r front = .error .endOfInput

theorem starves_nil : r.Starves [] := by
  intro front back h hb
  exact absurd (List.append_eq_nil_iff.mp h.symm).2 hb

/-- Either the cut is behind the bytes of the first reader, or that one runs out of input. -/
theorem Starves.bind {f : α → Reader β} (hs : r.Starves piece) (hy : r.Yields piece a)
    (hf : (f a).Starves more) : (r >>= f).Starves (piece ++ more) := by
  intro front back h hb
  change Reader.bind r f front = .error .endOfInput
  rcases List.append_eq_append_iff.mp h with ⟨rest, rfl, hmore⟩ | ⟨rest, hpiece, hback⟩
  · rw [Reader.bind, hy rest]
    exact hf rest back hmore hb
  · by_cases hrest : rest = []
    · subst hrest
      rw [List.append_nil] at hpiece
      have hr := hy []
      rw [List.append_nil, hpiece] at hr
      rw [Reader.bind, hr]
      exact hf [] back hback.symm hb
    · rw [Reader.bind, hs front rest hpiece hrest]

/-- Whatever the reader gives, it gives for just the bytes that it takes. -/
def Delimits (r : Reader α) : Prop :=
  r.Takes fun piece a => r.Yields piece a ∧ r.Starves piece

theorem delimits_pure (a : α) : (pure a : Reader α).Delimits :=
  takes_pure ⟨yields_pure a, starves_nil⟩

theorem delimits_fail {e : FormatError} : (fail e : Reader α).Delimits := takes_fail

theorem Delimits.bind {f : α → Reader β} (h : r.Delimits) (hf : ∀ a, (f a).Delimits) :
    (r >>= f).Delimits := by
  refine Takes.bind h ?_
  intro piece a ⟨hy, hs⟩ input b rest hb
  obtain ⟨more, rfl, hy', hs'⟩ := hf a hb
  exact ⟨more, rfl, hy.bind hy', hs.bind hy hs'⟩

theorem Delimits.map {f : α → β} (h : r.Delimits) : (r >>= fun a => pure (f a)).Delimits :=
  h.bind fun a => delimits_pure (f a)

theorem delimits_u8 : u8.Delimits := by
  intro input n rest h
  obtain ⟨piece, rfl, rfl⟩ := takes_u8 h
  refine ⟨[n], rfl, yields_u8 n, ?_⟩
  intro front back h hb
  cases front with
  | nil => rfl
  | cons byte front =>
    rw [List.cons_append, List.cons.injEq] at h
    exact absurd (List.append_eq_nil_iff.mp h.2.symm).2 hb

theorem delimits_bytes (count : Nat) : (bytes count).Delimits := by
  intro input taken rest h
  obtain ⟨piece, rfl, rfl, rfl⟩ := takes_bytes count h
  refine ⟨piece, rfl, yields_bytes piece, ?_⟩
  rintro front back rfl hb
  have hpos : 0 < back.length := List.length_pos_iff.mpr hb
  have hlen : ¬ (front.take (front ++ back).length).length = (front ++ back).length := by
    rw [List.length_take, List.length_append]
    omega
  rw [bytes, List.splitAt_eq]
  exact if_neg hlen

theorem delimits_u16 : u16.Delimits := (delimits_bytes 2).map.map

theorem delimits_u32 : u32.Delimits := (delimits_bytes 4).map.map

theorem delimits_u64 : u64.Delimits := (delimits_bytes 8).map.map

theorem delimits_i32 : i32.Delimits := delimits_u32.map

theorem delimits_i64 : i64.Delimits := delimits_u64.map

theorem Delimits.timesOnto (h : r.Delimits) {count : Nat} {done : List α} :
    (timesOnto r done count).Delimits := by
  induction count generalizing done with
  | zero => exact delimits_pure done.reverse
  | succ count ih => exact h.bind fun _ => ih

theorem Delimits.counted (h : r.Delimits) : (counted r).Delimits :=
  delimits_u16.bind fun _ => h.timesOnto

end Classfile.Reader
