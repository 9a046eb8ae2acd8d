import Mathlib.Data.List.Infix
import Brainfuck.Node.Traversal

/-!
Where the blocks of a tree are. A site is a block with its address, the indices that lead to it from
the root; the sites of a tree come in the order of every walk. A walk that has come through some of
the sites leaves a tree that stands between what it was and what it will be.
-/

namespace Brainfuck

abbrev Address := List Nat

@[ext]
structure Site where
  address : Address
  block : Block

namespace Node

def at? : Node → Address → Option Node
  | n, [] => some n
  | leaf _, _ :: _ => none
  | block _ body, i :: q => body[i]? >>= (·.at? q)

mutual

def sitesFrom (p : Address) : Node → List Site
  | leaf _ => []
  | block kind body => bodySites p 0 body ++ [⟨p, ⟨kind, body⟩⟩]

def bodySites (p : Address) (i : Nat) : List Node → List Site
  | [] => []
  | n :: ns => sitesFrom (p ++ [i]) n ++ bodySites p (i + 1) ns

end

def sites (t : Node) : List Site := t.sitesFrom []

mutual

/-- The node at the address `p` as it stands: what has been made of it, or else the node with its
children as they stand. -/
def standing (made : Address → Option Node) (p : Address) : Node → Node
  | leaf inst => leaf inst
  | block kind body => (made p).getD (block kind (bodyStanding made p 0 body))

def bodyStanding (made : Address → Option Node) (p : Address) (i : Nat) : List Node → List Node
  | [] => []
  | n :: ns => standing made (p ++ [i]) n :: bodyStanding made p (i + 1) ns

end

end Node

def Block.standing (made : Address → Option Node) (p : Address) (b : Block) : Block :=
  { b with body := Node.bodyStanding made p 0 b.body }

namespace Node

@[simp]
theorem at?_nil (n : Node) : n.at? [] = some n := by
  cases n <;> rfl

theorem at?_cons_eq_some {i : Nat} {q : Address} {n m : Node} :
    n.at? (i :: q) = some m ↔
      ∃ kind body c, n = block kind body ∧ body[i]? = some c ∧ c.at? q = some m := by
  cases n with
  | leaf inst => simp [at?]
  | block kind body => simp [at?, Option.bind_eq_some_iff]

theorem at?_append (n : Node) (q r : Address) : n.at? (q ++ r) = n.at? q >>= (·.at? r) := by
  induction q generalizing n with
  | nil => simp
  | cons i q ih =>
    cases n with
    | leaf inst => rfl
    | block kind body =>
      simp only [List.cons_append, at?, ih, bind_assoc]

mutual

theorem mem_sitesFrom {x : Site} (p : Address) : (n : Node) →
    (x ∈ n.sitesFrom p ↔ ∃ q, x.address = p ++ q ∧ n.at? q = some x.block.toNode)
  | leaf inst => by
    rw [sitesFrom]
    refine iff_of_false List.not_mem_nil ?_
    rintro ⟨q, -, hq⟩
    cases q <;> cases hq
  | block kind body => by
    rw [sitesFrom, List.mem_append, List.mem_singleton, mem_bodySites p 0 body]
    constructor
    · rintro (⟨j, q, c, hc, hx, hn⟩ | rfl)
      · exact ⟨j :: q, by simpa using hx, at?_cons_eq_some.mpr ⟨kind, body, c, rfl, hc, hn⟩⟩
      · exact ⟨[], by simp, rfl⟩
    · rintro ⟨q, hx, hq⟩
      cases q with
      | nil =>
        cases hq
        exact .inr (Site.ext (by simpa using hx) rfl)
      | cons j q =>
        obtain ⟨_, _, c, ⟨⟩, hc, hn⟩ := at?_cons_eq_some.mp hq
        exact .inl ⟨j, q, c, hc, by simpa using hx, hn⟩

theorem mem_bodySites {x : Site} (p : Address) (i : Nat) : (ns : List Node) →
    (x ∈ bodySites p i ns ↔
      ∃ j q n, ns[j]? = some n ∧ x.address = p ++ (i + j) :: q ∧ n.at? q = some x.block.toNode)
  | [] => by
    simp [bodySites]
  | n :: ns => by
    rw [bodySites, List.mem_append, mem_sitesFrom (p ++ [i]) n, mem_bodySites p (i + 1) ns]
    constructor
    · rintro (⟨q, hx, hn⟩ | ⟨j, q, m, hm, hx, hn⟩)
      · exact ⟨0, q, n, rfl, by simpa using hx, hn⟩
      · exact ⟨j + 1, q, m, hm, by rw [hx, Nat.add_right_comm, Nat.add_assoc], hn⟩
    · rintro ⟨j, q, m, hm, hx, hn⟩
      cases j with
      | zero =>
        cases hm
        exact .inl ⟨q, by simpa using hx, hn⟩
      | succ j => exact .inr ⟨j, q, m, hm, by rw [hx, Nat.add_right_comm, Nat.add_assoc], hn⟩

end

theorem mem_sites {t : Node} {q : Address} {b : Block} :
    ⟨q, b⟩ ∈ t.sites ↔ t.at? q = some b.toNode := by
  simp [sites, mem_sitesFrom]

mutual

theorem map_block_sitesFrom (p : Address) : (n : Node) → (n.sitesFrom p).map Site.block = n.blocks
  | leaf inst => by rw [sitesFrom, blocks, List.map_nil]
  | block kind body => by
    rw [sitesFrom, blocks, List.map_append, map_block_bodySites p 0 body, List.map_singleton]

theorem map_block_bodySites (p : Address) (i : Nat) : (ns : List Node) →
    (bodySites p i ns).map Site.block = bodyBlocks ns
  | [] => by rw [bodySites, bodyBlocks, List.map_nil]
  | n :: ns => by
    rw [bodySites, bodyBlocks, List.map_append, map_block_sitesFrom (p ++ [i]) n,
      map_block_bodySites p (i + 1) ns]

end

end Node

namespace Address

def Before : Address → Address → Prop
  | [], _ => False
  | _ :: _, [] => True
  | i :: p, j :: q => i < j ∨ i = j ∧ Before p q

theorem Before.irrefl (p : Address) : ¬Before p p := by
  induction p with
  | nil => exact id
  | cons i p ih => simp [Before, ih]

theorem Before.asymm {p q : Address} (h : Before p q) : ¬Before q p := by
  induction p generalizing q with
  | nil => cases h
  | cons i p ih =>
    cases q with
    | nil => exact id
    | cons j q =>
      rintro (hji | ⟨rfl, hqp⟩)
      · rcases h with hij | ⟨rfl, -⟩ <;> omega
      · rcases h with hij | ⟨-, hpq⟩
        · omega
        · exact ih hpq hqp

theorem append_before {r p q : Address} : Before (r ++ p) (r ++ q) ↔ Before p q := by
  induction r with
  | nil => rfl
  | cons i r ih => simp [Before, ih]

theorem Before.of_enclosed {p q : Address} (h : q <+: p) (hne : q ≠ p) : Before p q := by
  obtain ⟨r, rfl⟩ := h
  cases r with
  | nil => exact absurd (List.append_nil q).symm hne
  | cons i r => simpa [Before] using (append_before (r := q) (p := i :: r) (q := [])).mpr trivial

theorem Before.enclosed {p p' q : Address} (h : Before p' p) (h' : Before p q) (hq : q <+: p') :
    q <+: p := by
  induction q generalizing p p' with
  | nil => exact List.nil_prefix
  | cons j q ih =>
    obtain ⟨r, rfl⟩ := hq
    cases p with
    | nil => cases h'
    | cons i p =>
      rcases h with hji | ⟨rfl, h⟩
      · rcases h' with hij | ⟨rfl, -⟩ <;> omega
      · rcases h' with hij | ⟨-, h'⟩
        · omega
        · exact List.cons_prefix_cons.mpr ⟨rfl, ih h h' (List.prefix_append q r)⟩

end Address

namespace Node

open Address

mutual

theorem sitesFrom_pairwise (p : Address) : (n : Node) →
    (n.sitesFrom p).Pairwise fun x y => Before x.address y.address
  | leaf inst => by
    rw [sitesFrom]
    exact .nil
  | block kind body => by
    rw [sitesFrom, List.pairwise_append]
    refine ⟨bodySites_pairwise p 0 body, List.pairwise_singleton _ _, ?_⟩
    intro x hx y hy
    obtain ⟨j, q, n, -, hxq, -⟩ := (mem_bodySites p 0 body).mp hx
    rw [List.mem_singleton.mp hy, hxq]
    exact .of_enclosed (List.prefix_append p _) (by simp)

theorem bodySites_pairwise (p : Address) (i : Nat) : (ns : List Node) →
    (bodySites p i ns).Pairwise fun x y => Before x.address y.address
  | [] => by
    rw [bodySites]
    exact .nil
  | n :: ns => by
    rw [bodySites, List.pairwise_append]
    refine ⟨sitesFrom_pairwise (p ++ [i]) n, bodySites_pairwise p (i + 1) ns, ?_⟩
    intro x hx y hy
    obtain ⟨q, hxq, -⟩ := (mem_sitesFrom (p ++ [i]) n).mp hx
    obtain ⟨j, q', m, -, hyq, -⟩ := (mem_bodySites p (i + 1) ns).mp hy
    rw [hxq, hyq, List.append_assoc, append_before]
    exact .inl (by omega)

end

theorem sites_pairwise (t : Node) : t.sites.Pairwise fun x y => Before x.address y.address :=
  sitesFrom_pairwise [] t

section Standing

variable {made : Address → Option Node}

theorem getElem?_bodyStanding (p : Address) (i j : Nat) (ns : List Node) :
    (bodyStanding made p i ns)[j]? = ns[j]?.map (standing made (p ++ [i + j])) := by
  induction ns generalizing i j with
  | nil => simp [bodyStanding]
  | cons n ns ih =>
    cases j with
    | zero => simp [bodyStanding]
    | succ j => simp [bodyStanding, ih, Nat.add_right_comm, Nat.add_assoc]

theorem length_bodyStanding (p : Address) (i : Nat) (ns : List Node) :
    (bodyStanding made p i ns).length = ns.length := by
  induction ns generalizing i with
  | nil => simp [bodyStanding]
  | cons n ns ih => simp [bodyStanding, ih]

mutual

theorem standing_of_none (p : Address) : (n : Node) →
    (∀ x ∈ n.sitesFrom p, made x.address = none) → n.standing made p = n
  | leaf inst, _ => by rw [standing]
  | block kind body, h => by
    simp only [sitesFrom, List.mem_append, List.mem_singleton, or_imp, forall_and,
      forall_eq] at h
    rw [standing, h.2, bodyStanding_of_none p 0 body h.1, Option.getD_none]

theorem bodyStanding_of_none (p : Address) (i : Nat) : (ns : List Node) →
    (∀ x ∈ bodySites p i ns, made x.address = none) → bodyStanding made p i ns = ns
  | [], _ => by rw [bodyStanding]
  | n :: ns, h => by
    simp only [bodySites, List.mem_append, or_imp, forall_and] at h
    rw [bodyStanding, standing_of_none (p ++ [i]) n h.1, bodyStanding_of_none p (i + 1) ns h.2]

end

theorem at?_standing {n m : Node} {p q : Address} (hq : n.at? q = some m)
    (h : ∀ r, r <+: q → r ≠ q → made (p ++ r) = none) :
    (n.standing made p).at? q = some (m.standing made (p ++ q)) := by
  induction q generalizing n p with
  | nil =>
    cases hq
    simp
  | cons i q ih =>
    obtain ⟨kind, body, c, rfl, hc, hm⟩ := at?_cons_eq_some.mp hq
    have hp : made p = none := by simpa using h [] List.nil_prefix (by simp)
    have hrest := ih (p := p ++ [i]) hm (by
      intro r hr hne
      simpa using h (i :: r) (List.cons_prefix_cons.mpr ⟨rfl, hr⟩) (by simpa using hne))
    rw [standing, hp, Option.getD_none, at?_cons_eq_some]
    refine ⟨kind, _, c.standing made (p ++ [i]), rfl, ?_, by simpa using hrest⟩
    rw [getElem?_bodyStanding, hc, Nat.zero_add]
    rfl

end Standing

end Node

end Brainfuck
