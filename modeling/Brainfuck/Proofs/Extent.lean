import Brainfuck.Proofs.Edits
import Brainfuck.Proofs.Endless

namespace Brainfuck

structure Extent where
  lo : Int
  hi : Int
  narrow : hi - lo < 2 ^ 31

namespace Extent

variable {e : Extent} {p q : Int}

def Has (e : Extent) (p : Int) : Prop := e.lo ≤ p ∧ p ≤ e.hi

theorem exists_offset (hp : e.Has p) (hq : e.Has q) : ∃ o : Offset, o.toInt = q - p := by
  refine ⟨Int32.ofInt (q - p), ?_⟩
  have hn := e.narrow
  simp only [Has] at hp hq
  apply Int32.toInt_ofInt_of_le <;> omega

theorem natAbs_le {o : Offset} (hp : e.Has p) (hq : e.Has (p + o.toInt)) :
    (o.toInt.natAbs : Int) ≤ e.hi - e.lo := by
  simp only [Has] at hp hq
  omega

theorem addChecked_ok {a b : Offset} (hp : e.Has p) (hq : e.Has (p + a.toInt + b.toInt)) :
    ∃ c, a.addChecked b = .ok c ∧ c.toInt = a.toInt + b.toInt := by
  obtain ⟨c, hc⟩ := exists_offset hp hq
  have hsum : c.toInt = a.toInt + b.toInt := by omega
  exact ⟨c, Offset.addChecked_eq_ok.mpr hsum, hsum⟩

end Extent

namespace Node

def movement : Node → Int
  | leaf (.move d) => d.toInt
  | _ => 0

def drift : List Node → Int
  | [] => 0
  | n :: ns => n.movement + drift ns

mutual

def Within (e : Extent) (p : Int) : Node → Prop
  | leaf inst => e.Has p ∧ ∀ o ∈ inst.offsets, e.Has (p + o.toInt)
  | block _ body => BodyWithin e p body

def BodyWithin (e : Extent) (p : Int) : List Node → Prop
  | [] => e.Has p
  | n :: ns => Within e p n ∧ BodyWithin e (p + n.movement) ns

end

variable {e : Extent} {p : Int}

@[simp]
theorem within_leaf {inst : Instruction} :
    Within e p (leaf inst) ↔ e.Has p ∧ ∀ o ∈ inst.offsets, e.Has (p + o.toInt) := by
  rw [Within]

@[simp]
theorem within_block {kind : BlockKind} {body : List Node} :
    Within e p (block kind body) ↔ BodyWithin e p body := by
  rw [Within]

@[simp]
theorem bodyWithin_nil : BodyWithin e p [] ↔ e.Has p := by
  rw [BodyWithin]

@[simp]
theorem bodyWithin_cons {n : Node} {ns : List Node} :
    BodyWithin e p (n :: ns) ↔ Within e p n ∧ BodyWithin e (p + n.movement) ns := by
  rw [BodyWithin]

mutual

theorem Within.has : (n : Node) → Within e p n → e.Has p
  | leaf _, h => (within_leaf.mp h).1
  | block _ body, h => BodyWithin.has body (within_block.mp h)

theorem BodyWithin.has : (ns : List Node) → BodyWithin e p ns → e.Has p
  | [], h => bodyWithin_nil.mp h
  | n :: _, h => Within.has n (bodyWithin_cons.mp h).1

end

theorem drift_append (ns ms : List Node) : drift (ns ++ ms) = drift ns + drift ms := by
  induction ns with
  | nil => simp [drift]
  | cons n ns ih =>
    simp only [List.cons_append, drift, ih]
    omega

theorem bodyWithin_append {ns ms : List Node} :
    BodyWithin e p (ns ++ ms) ↔ BodyWithin e p ns ∧ BodyWithin e (p + drift ns) ms := by
  induction ns generalizing p with
  | nil =>
    simp only [List.nil_append, bodyWithin_nil, drift, Int.add_zero]
    exact ⟨fun h => ⟨h.has, h⟩, fun h => h.2⟩
  | cons n ns ih =>
    have hp : p + n.movement + drift ns = p + (n.movement + drift ns) := by omega
    simp only [List.cons_append, bodyWithin_cons, drift, ih, hp, and_assoc]

def Still (is : List Instruction) : Prop := ∀ i ∈ is, (leaf i).movement = 0

theorem drift_of_still {is : List Instruction} (h : Still is) : drift (is.map leaf) = 0 := by
  induction is with
  | nil => rfl
  | cons i is ih =>
    have hi := h i List.mem_cons_self
    have his := ih fun j hj => h j (List.mem_cons_of_mem i hj)
    simp only [List.map_cons, drift]
    omega

theorem bodyWithin_of_still {is : List Instruction} (h : Still is) :
    BodyWithin e p (is.map leaf) ↔ e.Has p ∧ ∀ i ∈ is, ∀ o ∈ i.offsets, e.Has (p + o.toInt) := by
  induction is with
  | nil => simp
  | cons i is ih =>
    have hi := h i List.mem_cons_self
    have his := ih fun j hj => h j (List.mem_cons_of_mem i hj)
    simp only [List.map_cons, bodyWithin_cons, within_leaf, hi, Int.add_zero, his, List.mem_cons,
      forall_eq_or_imp]
    constructor
    · rintro ⟨⟨hp, ho⟩, -, hos⟩
      exact ⟨hp, ho, hos⟩
    · rintro ⟨hp, ho, hos⟩
      exact ⟨⟨hp, ho⟩, hp, hos⟩

mutual

theorem exists_within_of_mem_blocks : (n : Node) → ∀ p, Within e p n → ∀ b ∈ n.blocks,
    ∃ q, BodyWithin e q b.body
  | leaf inst, _, _, b, hb => by
    rw [blocks_leaf] at hb
    cases hb
  | block kind body, p, h, b, hb => by
    rw [within_block] at h
    rw [blocks, List.mem_append, List.mem_singleton] at hb
    rcases hb with hb | rfl
    · exact exists_within_of_mem_bodyBlocks body p h b hb
    · exact ⟨p, h⟩

theorem exists_within_of_mem_bodyBlocks : (ns : List Node) → ∀ p, BodyWithin e p ns →
    ∀ b ∈ bodyBlocks ns, ∃ q, BodyWithin e q b.body
  | [], _, _, b, hb => by
    rw [bodyBlocks] at hb
    cases hb
  | n :: ns, p, h, b, hb => by
    rw [bodyWithin_cons] at h
    rw [bodyBlocks, List.mem_append] at hb
    rcases hb with hb | hb
    · exact exists_within_of_mem_blocks n p h.1 b hb
    · exact exists_within_of_mem_bodyBlocks ns (p + n.movement) h.2 b hb

end

section Edit

variable {ε : Type} {f : Block → Except ε Block}

mutual

theorem editBlocksM_within (hf : ∀ kind a p, BodyWithin e p a →
      ∃ a', f ⟨kind, a⟩ = .ok ⟨kind, a'⟩ ∧ BodyWithin e p a') :
    (n : Node) → ∀ p, Within e p n →
      ∃ n', n.editBlocksM f = .ok n' ∧ Within e p n' ∧ n'.movement = n.movement
  | leaf inst, _, h => ⟨leaf inst, editBlocksM_leaf_eq_ok.mpr rfl, h, rfl⟩
  | block kind body, p, h => by
    rw [within_block] at h
    obtain ⟨body', hbody, hw⟩ := editBodyM_within hf body p h
    obtain ⟨body'', hb, hw'⟩ := hf kind body' p hw
    exact ⟨block kind body'', editBlocksM_block_eq_ok.mpr ⟨body', _, hbody, hb, rfl⟩,
      within_block.mpr hw', rfl⟩

theorem editBodyM_within (hf : ∀ kind a p, BodyWithin e p a →
      ∃ a', f ⟨kind, a⟩ = .ok ⟨kind, a'⟩ ∧ BodyWithin e p a') :
    (ns : List Node) → ∀ p, BodyWithin e p ns →
      ∃ ms, editBodyM f ns = .ok ms ∧ BodyWithin e p ms
  | [], _, h => ⟨[], editBodyM_nil_eq_ok.mpr rfl, h⟩
  | n :: ns, p, h => by
    rw [bodyWithin_cons] at h
    obtain ⟨n', hn, hw, hm⟩ := editBlocksM_within hf n p h.1
    obtain ⟨ns', hns, hws⟩ := editBodyM_within hf ns (p + n.movement) h.2
    exact ⟨n' :: ns', editBodyM_cons_eq_ok.mpr ⟨n', ns', hn, hns, rfl⟩,
      bodyWithin_cons.mpr ⟨hw, hm ▸ hws⟩⟩

end

end Edit

end Node

end Brainfuck
