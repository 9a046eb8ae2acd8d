import Brainfuck.Machine.Run

namespace Brainfuck

theorem Machine.whileNonzero_mono {f g : Machine → Outcome}
    (h : ∀ m, f m ≠ .givenUp → g m = f m) {a b : Nat} (hab : a ≤ b) (m : Machine)
    (hm : whileNonzero f a m ≠ .givenUp) : whileNonzero g b m = whileNonzero f a m := by
  induction a generalizing b m with
  | zero => exact absurd rfl hm
  | succ a ih =>
    obtain ⟨b, rfl⟩ : ∃ c, b = c + 1 := ⟨b - 1, by omega⟩
    unfold whileNonzero at hm ⊢
    cases ht : m.tick with
    | failed => rfl
    | givenUp => rfl
    | finished m =>
      cases hi : address m.pointer 0 with
      | error => simp [hi]
      | ok i =>
        simp only [ht, hi] at hm ⊢
        split
        · rfl
        · rename_i hz
          rw [if_neg hz] at hm
          have hg : g m = f m := h m fun he => hm (by rw [he])
          rw [hg]
          cases hf : f m with
          | finished m => exact ih (by omega) m (by simpa [hf] using hm)
          | failed => rfl
          | givenUp => rfl

namespace Node

mutual

theorem run_mono (s : CellSize) {a b : Nat} (hab : a ≤ b) :
    ∀ (n : Node) (m : Machine), n.run s a m ≠ .givenUp → n.run s b m = n.run s a m
  | leaf _, _, _ => by simp only [run]
  | block .program body, m, h => by
    simp only [run] at h ⊢
    exact runBody_mono s hab body m h
  | block .loop body, m, h => by
    simp only [run] at h ⊢
    exact Machine.whileNonzero_mono (runBody_mono s hab body) hab m h

theorem runBody_mono (s : CellSize) {a b : Nat} (hab : a ≤ b) :
    ∀ (ns : List Node) (m : Machine),
      runBody s a ns m ≠ .givenUp → runBody s b ns m = runBody s a ns m
  | [], _, _ => by simp only [runBody]
  | n :: ns, m, h => by
    simp only [runBody] at h ⊢
    rw [run_mono s hab n m fun he => h (by rw [he])]
    cases hn : run s a n m with
    | finished m => exact runBody_mono s hab ns m (by simpa [hn] using h)
    | failed => rfl
    | givenUp => rfl

end

end Node

end Brainfuck
