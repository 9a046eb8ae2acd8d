import Mathlib.Order.Bounds.Defs
import Brainfuck.Proofs.Grammar

namespace Brainfuck.Source

def Surplus (source : List UInt8) (i : Nat) : Prop :=
  source[i]? = some 0x5D ∧ (source.take (i + 1)).count 0x5B < (source.take (i + 1)).count 0x5D

def Matches (source : List UInt8) (i j : Nat) : Prop :=
  i < j ∧ source[i]? = some 0x5B ∧ source[j]? = some 0x5D ∧ Balanced ((source.take j).drop (i + 1))

def Unclosed (source : List UInt8) (i : Nat) : Prop :=
  source[i]? = some 0x5B ∧ ∀ j, ¬Matches source i j

def NeverOverdrawn (source : List UInt8) : Prop :=
  ∀ p, p <+: source → p.count 0x5D ≤ p.count 0x5B

section Counting

variable {u v w source : List UInt8} {i n m : Nat} {b : UInt8}

theorem prefix_append_cases {p : List UInt8} (h : p <+: u ++ v) :
    p <+: u ∨ ∃ q, p = u ++ q ∧ q <+: v := by
  by_cases hle : p.length ≤ u.length
  · exact .inl (List.prefix_of_prefix_length_le h (List.prefix_append u v) hle)
  · obtain ⟨q, rfl⟩ := List.prefix_of_prefix_length_le (List.prefix_append u v) h (by omega)
    exact .inr ⟨q, rfl, (List.prefix_append_right_inj u).mp h⟩

theorem ClosesFrom.append (hu : ClosesFrom n u) (hv : ClosesFrom m v) :
    ClosesFrom (n + m) (u ++ v) := by
  have htotal := hu.2
  refine ⟨?_, ?_⟩
  · intro p hp
    rcases prefix_append_cases hp with hp | ⟨q, rfl, hq⟩
    · have hcount := hu.1 p hp
      omega
    · have hcount := hv.1 q hq
      simp only [List.count_append]
      omega
  · have htotal' := hv.2
    simp only [List.count_append]
    omega

theorem Balanced.append (hu : Balanced u) (hv : Balanced v) : Balanced (u ++ v) := by
  rw [balanced_iff_closesFrom] at *
  exact hu.append hv

theorem balanced_nil : Balanced [] := balanced_iff_closesFrom.mpr (closesFrom_nil.mpr rfl)

theorem balanced_comment (hopen : b ≠ 0x5B) (hclose : b ≠ 0x5D) : Balanced [b] := by
  rw [balanced_iff_closesFrom, closesFrom_cons, if_neg hclose, if_neg hopen]
  exact closesFrom_nil.mpr rfl

theorem Balanced.enclosed (h : Balanced u) : Balanced (0x5B :: u ++ [0x5D]) := by
  rw [balanced_iff_closesFrom] at *
  have hclose : ClosesFrom 1 [0x5D] := by
    rw [closesFrom_cons, if_pos rfl]
    exact ⟨Nat.one_pos, closesFrom_nil.mpr rfl⟩
  have hinner : ClosesFrom (0 + 1) (u ++ [0x5D]) := h.append hclose
  rw [List.cons_append, closesFrom_cons, if_neg (by decide), if_pos rfl]
  exact hinner

theorem exists_closing_split (h : n + w.count 0x5B < w.count 0x5D) :
    ∃ u v, w = u ++ 0x5D :: v ∧ ClosesFrom n u := by
  induction w generalizing n with
  | nil => simp at h
  | cons b w ih =>
    have hstep (m : Nat) (hm : m + w.count 0x5B < w.count 0x5D)
        (hb : ∀ u, ClosesFrom m u → ClosesFrom n (b :: u)) :
        ∃ u v, b :: w = u ++ 0x5D :: v ∧ ClosesFrom n u := by
      obtain ⟨u, v, rfl, hu⟩ := ih hm
      exact ⟨b :: u, v, rfl, hb u hu⟩
    by_cases hclose : b = 0x5D
    · subst hclose
      rw [List.count_cons_self, List.count_cons_of_ne (by decide)] at h
      by_cases hn : n = 0
      · exact ⟨[], w, rfl, closesFrom_nil.mpr hn⟩
      · apply hstep (n - 1) (by omega)
        intro u hu
        rw [closesFrom_cons, if_pos rfl]
        exact ⟨by omega, hu⟩
    · by_cases hopen : b = 0x5B
      · subst hopen
        rw [List.count_cons_self, List.count_cons_of_ne (by decide)] at h
        apply hstep (n + 1) (by omega)
        intro u hu
        rwa [closesFrom_cons, if_neg hclose, if_pos rfl]
      · rw [List.count_cons_of_ne hclose, List.count_cons_of_ne hopen] at h
        apply hstep n h
        intro u hu
        rwa [closesFrom_cons, if_neg hclose, if_neg hopen]

theorem exists_balanced_split (h : w.count 0x5B < w.count 0x5D) :
    ∃ u v, w = u ++ 0x5D :: v ∧ Balanced u := by
  simp only [balanced_iff_closesFrom]
  apply exists_closing_split
  omega

theorem exists_split_at (h : source[i]? = some b) :
    ∃ u v, source = u ++ b :: v ∧ u.length = i := by
  obtain ⟨hi, rfl⟩ := List.getElem?_eq_some_iff.mp h
  refine ⟨source.take i, source.drop (i + 1), ?_, List.length_take_of_le (Nat.le_of_lt hi)⟩
  rw [List.getElem_cons_drop, List.take_append_drop]

theorem Balanced.neverOverdrawn (h : Balanced u) : NeverOverdrawn u := h.1

theorem NeverOverdrawn.append (hu : NeverOverdrawn u) (hv : NeverOverdrawn v) :
    NeverOverdrawn (u ++ v) := by
  have hall := hu u List.prefix_rfl
  intro p hp
  rcases prefix_append_cases hp with hp | ⟨q, rfl, hq⟩
  · exact hu p hp
  · have hle := hv q hq
    simp only [List.count_append]
    omega

theorem NeverOverdrawn.opening (hv : NeverOverdrawn v) : NeverOverdrawn (0x5B :: v) := by
  intro p hp
  rcases List.prefix_cons_iff.mp hp with rfl | ⟨q, rfl, hq⟩
  · exact Nat.zero_le _
  · have hle := hv q hq
    rw [List.count_cons_self, List.count_cons_of_ne (by decide)]
    omega

theorem NeverOverdrawn.not_surplus (h : NeverOverdrawn source) (i : Nat) : ¬Surplus source i := by
  rintro ⟨-, hi⟩
  have hle := h _ (List.take_prefix (i + 1) source)
  omega

theorem surplus_of_split (h : source = u ++ 0x5D :: v) (hu : Balanced u) :
    IsLeast {i | Surplus source i} u.length := by
  subst h
  refine ⟨⟨by simp, ?_⟩, ?_⟩
  · have hcount := hu.2
    rw [List.take_length_add_append]
    simp [List.count_append, hcount]
  · rintro i ⟨-, hi⟩
    by_contra hlt
    have hprefix : (u ++ 0x5D :: v).take (i + 1) <+: u := by
      rw [List.take_append_of_le_length (by omega)]
      exact List.take_prefix _ _
    have hle := hu.1 _ hprefix
    omega

end Counting

section Matching

variable {u v w source : List UInt8} {i : Nat}

theorem matches_split_iff {k : Nat} :
    Matches (u ++ 0x5B :: v) u.length (u.length + 1 + k) ↔
      v[k]? = some 0x5D ∧ Balanced (v.take k) := by
  have hlen : (u ++ [0x5B]).length = u.length + 1 := by simp
  have hopen : (u ++ 0x5B :: v)[u.length]? = some 0x5B := by simp
  have hclose : (u ++ 0x5B :: v)[u.length + 1 + k]? = v[k]? := by
    rw [List.append_cons, ← hlen, List.getElem?_append_right (Nat.le_add_right _ _),
      Nat.add_sub_cancel_left]
  have hinner : ((u ++ 0x5B :: v).take (u.length + 1 + k)).drop (u.length + 1) = v.take k := by
    rw [List.append_cons, ← hlen, List.take_length_add_append, List.drop_left]
  rw [Matches, hopen, hclose, hinner]
  constructor
  · rintro ⟨-, -, h⟩
    exact h
  · intro h
    exact ⟨by omega, rfl, h⟩

theorem Balanced.exists_closing (h : Balanced (u ++ 0x5B :: w)) :
    ∃ v z, w = v ++ 0x5D :: z ∧ Balanced v := by
  apply exists_balanced_split
  have hprefix := h.1 u (List.prefix_append _ _)
  have htotal := h.2
  rw [List.count_append, List.count_append, List.count_cons_self,
    List.count_cons_of_ne (by decide)] at htotal
  omega

theorem Balanced.not_unclosed (h : Balanced u) (hi : i < u.length) (v : List UInt8) :
    ¬Unclosed (u ++ v) i := by
  rintro ⟨hopen, hnone⟩
  rw [List.getElem?_append_left hi] at hopen
  obtain ⟨before, rest, rfl, rfl⟩ := exists_split_at hopen
  obtain ⟨inner, after, rfl, hinner⟩ := h.exists_closing
  apply hnone (before.length + 1 + inner.length)
  rw [List.append_assoc, List.cons_append, matches_split_iff, List.append_assoc, List.take_left]
  exact ⟨by simp, hinner⟩

theorem unclosed_of_split (h : source = u ++ 0x5B :: v) (hu : Balanced u) (hv : NeverOverdrawn v) :
    IsLeast {i | Unclosed source i} u.length := by
  subst h
  refine ⟨⟨by simp, ?_⟩, ?_⟩
  · intro j hj
    obtain ⟨k, rfl⟩ : ∃ k, j = u.length + 1 + k := ⟨j - (u.length + 1), by have := hj.1; omega⟩
    obtain ⟨hclose, hinner⟩ := matches_split_iff.mp hj
    obtain ⟨inner, after, rfl, rfl⟩ := exists_split_at hclose
    rw [List.take_left] at hinner
    -- up to this bracket, what follows the loop's own bracket closes one loop too many
    have hle := hv (inner ++ [0x5D]) ⟨after, by simp⟩
    have htotal := hinner.2
    rw [List.count_append, List.count_append, List.count_singleton_self,
      List.count_eq_zero_of_not_mem (by decide : (0x5B : UInt8) ∉ [0x5D])] at hle
    omega
  · intro i hi
    by_contra hlt
    exact hu.not_unclosed (by omega) (0x5B :: v) hi

end Matching

section Scanning

variable {os : List Nat} {p q w : List UInt8} {b : UInt8}

def Opens : List Nat → List UInt8 → Prop
  | [], p => Balanced p
  | o :: os, p => ∃ q inner, p = q ++ 0x5B :: inner ∧ q.length = o ∧ Opens os q ∧ Balanced inner

theorem Opens.append (h : Opens os p) (hw : Balanced w) : Opens os (p ++ w) := by
  cases os with
  | nil => exact Balanced.append h hw
  | cons o os =>
    obtain ⟨q, inner, rfl, ho, hq, hinner⟩ := h
    exact ⟨q, inner ++ w, by simp, ho, hq, hinner.append hw⟩

theorem Opens.opening (h : Opens os p) : Opens (p.length :: os) (p ++ [0x5B]) :=
  ⟨p, [], rfl, rfl, h, balanced_nil⟩

theorem Opens.closing {o : Nat} (h : Opens (o :: os) p) : Opens os (p ++ [0x5D]) := by
  obtain ⟨q, inner, rfl, -, hq, hinner⟩ := h
  rw [List.append_assoc]
  exact hq.append hinner.enclosed

theorem Opens.outermost {o : Nat} (h : Opens (o :: os) p) :
    ∃ u v, p = u ++ 0x5B :: v ∧ u.length = (o :: os).getLast (List.cons_ne_nil o os) ∧
      Balanced u ∧ NeverOverdrawn v := by
  induction os generalizing o p with
  | nil =>
    obtain ⟨q, inner, rfl, ho, hq, hinner⟩ := h
    exact ⟨q, inner, rfl, ho, hq, hinner.neverOverdrawn⟩
  | cons o' os ih =>
    obtain ⟨q, inner, rfl, -, hq, hinner⟩ := h
    obtain ⟨u, v, rfl, hu, hbalanced, hv⟩ := ih hq
    exact ⟨u, v ++ 0x5B :: inner, by simp, hu, hbalanced, hv.append hinner.neverOverdrawn.opening⟩

inductive Blame (source : List UInt8) : ParseError → Prop
  | close {u v : List UInt8} : source = u ++ 0x5D :: v → Balanced u →
      Blame source (.unmatchedClose u.length)
  | loop {u v : List UInt8} : source = u ++ 0x5B :: v → Balanced u → NeverOverdrawn v →
      Blame source (.unclosedLoop u.length)
  | nobody : Balanced source → Blame source (.unmatchedClose source.length)

theorem culpritFrom_opening (n : Nat) (os : List Nat) (bs : List UInt8) :
    culpritFrom n os (0x5B :: bs) = culpritFrom (n + 1) (n :: os) bs := by
  cases os <;> rfl

theorem culpritFrom_comment (hopen : b ≠ 0x5B) (hclose : b ≠ 0x5D) (n : Nat) (os : List Nat)
    (bs : List UInt8) : culpritFrom n os (b :: bs) = culpritFrom (n + 1) os bs := by
  rw [culpritFrom.eq_def]
  cases h : Symbol.ofByte? b with
  | none => cases os <;> simp only [h]
  | some x =>
    have hx := Symbol.byte_of_ofByte? h
    cases x with
    | command => cases os <;> simp only [h]
    | opening => exact absurd hx.symm hopen
    | closing => exact absurd hx.symm hclose

theorem culpritFrom_blame (bs : List UInt8) (h : Opens os p) :
    Blame (p ++ bs) (culpritFrom p.length os bs) := by
  induction bs generalizing os p with
  | nil =>
    rw [List.append_nil]
    cases os with
    | nil => exact .nobody h
    | cons o os =>
      obtain ⟨u, v, hp, ho, hu, hv⟩ := h.outermost
      rw [culpritFrom, ← ho]
      exact .loop hp hu hv
  | cons b bs ih =>
    have hnext (os' : List Nat) (hopens : Opens os' (p ++ [b])) :
        Blame (p ++ b :: bs) (culpritFrom (p.length + 1) os' bs) := by
      have hrest := ih hopens
      rwa [← List.append_cons, List.length_append, List.length_singleton] at hrest
    by_cases hopen : b = 0x5B
    · subst hopen
      rw [culpritFrom_opening]
      exact hnext _ h.opening
    · by_cases hclose : b = 0x5D
      · subst hclose
        cases os with
        | nil => exact .close rfl h
        | cons o os => exact hnext os h.closing
      · rw [culpritFrom_comment hopen hclose]
        exact hnext os (h.append (balanced_comment hopen hclose))

theorem culprit_blame (source : List UInt8) : Blame source (culprit source) := by
  have hnone : Opens [] [] := balanced_nil
  exact culpritFrom_blame source hnone

end Scanning

theorem read_rest_eq_nil_iff (source : List UInt8) : (read source).2 = [] ↔ Balanced source := by
  rw [← parse_isOk_iff, parse_eq_read]
  by_cases h : (read source).2 = []
  · simp [h]
  · simp [h]

theorem Blame.least {source : List UInt8} {e : ParseError} (h : Blame source e)
    (hunbalanced : ¬Balanced source) :
    (∃ i, e = .unmatchedClose i ∧ IsLeast {i | Surplus source i} i) ∨
      ∃ i, e = .unclosedLoop i ∧ (∀ j, ¬Surplus source j) ∧ IsLeast {i | Unclosed source i} i := by
  cases h with
  | close hsource hu => exact .inl ⟨_, rfl, surplus_of_split hsource hu⟩
  | loop hsource hu hv =>
    refine .inr ⟨_, rfl, ?_, unclosed_of_split hsource hu hv⟩
    rw [hsource]
    exact (hu.neverOverdrawn.append hv.opening).not_surplus
  | nobody h => exact absurd h hunbalanced

theorem balanced_iff_no_culprit (source : List UInt8) :
    Balanced source ↔ ∀ i, ¬Surplus source i ∧ ¬Unclosed source i := by
  constructor
  · intro h i
    refine ⟨h.neverOverdrawn.not_surplus i, ?_⟩
    intro hi
    obtain ⟨hlt, -⟩ := List.getElem?_eq_some_iff.mp hi.1
    apply h.not_unclosed hlt []
    rwa [List.append_nil]
  · intro h
    by_contra hunbalanced
    rcases (culprit_blame source).least hunbalanced with ⟨i, -, hi⟩ | ⟨i, -, -, hi⟩
    · exact (h i).1 hi.1
    · exact (h i).2 hi.1

theorem parse_of_unread {source : List UInt8} (h : (read source).2 ≠ []) :
    parseDelivery (.ok source) = .error (culprit source) := by
  rw [parseDelivery, parse_eq_read, if_neg h]

/-- A source is left unread in part when some bracket has no partner. The parser then points at the
first `]` at which closed loops outnumber opened ones, or if there is none, at the leftmost `[` that
is not matched; in either case at a bracket of that kind, and never at the end of the source. -/
theorem parse_points_at_bracket (source : List UInt8) :
    ((read source).2 = [] ↔ ∀ i, ¬Surplus source i ∧ ¬Unclosed source i) ∧
    ((read source).2 ≠ [] →
      ((∃ i, Surplus source i) → ∃ i, IsLeast {i | Surplus source i} i ∧
        parseDelivery (.ok source) = .error (.unmatchedClose i)) ∧
      ((∀ i, ¬Surplus source i) → ∃ i, IsLeast {i | Unclosed source i} i ∧
        parseDelivery (.ok source) = .error (.unclosedLoop i)) ∧
      (∀ i, parseDelivery (.ok source) = .error (.unmatchedClose i) → source[i]? = some 0x5D) ∧
      (∀ i, parseDelivery (.ok source) = .error (.unclosedLoop i) → source[i]? = some 0x5B) ∧
      culprit source ≠ .unmatchedClose source.length) := by
  refine ⟨(read_rest_eq_nil_iff source).trans (balanced_iff_no_culprit source), ?_⟩
  intro hunread
  rw [parse_of_unread hunread]
  have hunbalanced := (read_rest_eq_nil_iff source).not.mp hunread
  rcases (culprit_blame source).least hunbalanced with ⟨i, he, hi⟩ | ⟨i, he, hnone, hi⟩
  · rw [he]
    refine ⟨fun _ => ⟨i, hi, rfl⟩, fun hnone => absurd hi.1 (hnone i), ?_, nofun, ?_⟩
    · rintro _ ⟨rfl⟩
      exact hi.1.1
    · rintro ⟨rfl⟩
      have hget := hi.1.1
      simp at hget
  · rw [he]
    refine ⟨fun ⟨j, hj⟩ => absurd hj (hnone j), fun _ => ⟨i, hi, rfl⟩, nofun, ?_, nofun⟩
    rintro _ ⟨rfl⟩
    exact hi.1.1

theorem parse_points_at_bracket_second_close :
    (read [0x2B, 0x5B, 0x2D, 0x5D, 0x5D, 0x20, 0x5B]).2 ≠ [] ∧
      IsLeast {i | Surplus [0x2B, 0x5B, 0x2D, 0x5D, 0x5D, 0x20, 0x5B] i} 4 ∧
      parseDelivery (.ok [0x2B, 0x5B, 0x2D, 0x5D, 0x5D, 0x20, 0x5B]) =
        .error (.unmatchedClose 4) := by
  have hparse : parse [0x2B, 0x5B, 0x2D, 0x5D, 0x5D, 0x20, 0x5B] = .error (.unmatchedClose 4) := rfl
  have hunread : (read [0x2B, 0x5B, 0x2D, 0x5D, 0x5D, 0x20, 0x5B]).2 ≠ [] := by
    intro h
    rw [parse_eq_read, if_pos h] at hparse
    cases hparse
  have hsurplus : Surplus [0x2B, 0x5B, 0x2D, 0x5D, 0x5D, 0x20, 0x5B] 4 := ⟨rfl, by decide⟩
  obtain ⟨i, hi, he⟩ := ((parse_points_at_bracket _).2 hunread).1 ⟨4, hsurplus⟩
  obtain rfl : 4 = i := by
    have heq := hparse.symm.trans he
    cases heq
    rfl
  exact ⟨hunread, hi, he⟩

end Brainfuck.Source
