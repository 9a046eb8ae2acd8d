import Brainfuck.Proofs.Sites

namespace Brainfuck

open Node

variable {σ ε α : Type}

structure Call (σ : Type) where
  before : σ
  given : Block
  made : Block
  after : σ

def noting (g : Block → StateM σ Block) (b : Block) : StateM (σ × List (Call σ)) Block :=
  fun (s, log) =>
    let (b', s') := g b s
    (b', s', log ++ [⟨s, b, b', s'⟩])

def notingAttempts (f : σ → Block → Attempt σ ε Block) :
    σ × List (Call σ) → Block → Attempt (σ × List (Call σ)) ε Block :=
  fun (s, log) b =>
    let r := f s b
    ⟨(r.state, log ++ [⟨s, b, r.value, r.state⟩]), r.value, r.failure⟩

def regardless (f : σ → Block → Attempt σ ε Block) (b : Block) : StateM σ Block :=
  fun s => ((f s b).value, (f s b).state)

def Call.failure (f : σ → Block → Attempt σ ε Block) (c : Call σ) : Option ε :=
  (f c.before c.given).failure

def Threads (g : Block → StateM σ Block) : σ → List (Call σ) → σ → Prop
  | s, [], s' => s' = s
  | s, c :: cs, s' => c.before = s ∧ g c.given s = (c.made, c.after) ∧ Threads g c.after cs s'

theorem Threads.append {g : Block → StateM σ Block} {s s' s'' : σ} {cs ds : List (Call σ)}
    (h : Threads g s cs s') (h' : Threads g s' ds s'') : Threads g s (cs ++ ds) s'' := by
  induction cs generalizing s with
  | nil =>
    cases h
    exact h'
  | cons c cs ih => exact ⟨h.1, h.2.1, ih h.2.2⟩

section Steps

variable {g : Block → StateM σ Block} {f : σ → Block → Attempt σ ε Block} {s s₁ s₂ : σ}
  {kind : BlockKind} {body body' ns ns' : List Node} {n n' : Node} {e : ε}

theorem editBlocksM_block_run (h : editBodyM g body s = (body', s₁)) :
    (block kind body).editBlocksM g s = ((g ⟨kind, body'⟩ s₁).1.toNode, (g ⟨kind, body'⟩ s₁).2) := by
  rw [editBlocksM]
  change StateT.bind (editBodyM g body) _ s = _
  simp only [StateT.bind, h]
  rfl

theorem editBodyM_cons_run (h : n.editBlocksM g s = (n', s₁)) (h' : editBodyM g ns s₁ = (ns', s₂)) :
    editBodyM g (n :: ns) s = (n' :: ns', s₂) := by
  rw [editBodyM]
  change StateT.bind (n.editBlocksM g) (fun n => StateT.bind (editBodyM g ns) _) s = _
  simp only [StateT.bind, h]
  change (let r := editBodyM g ns s₁; (n' :: r.1, r.2)) = _
  rw [h']

theorem tryEditBlocks_block_ok (h : tryEditBody f s body = ⟨s₁, body', none⟩) :
    (block kind body).tryEditBlocks f s =
      ⟨(f s₁ ⟨kind, body'⟩).state, (f s₁ ⟨kind, body'⟩).value.toNode,
        (f s₁ ⟨kind, body'⟩).failure⟩ := by
  rw [tryEditBlocks, h]

theorem tryEditBlocks_block_failed (h : tryEditBody f s body = ⟨s₁, body', some e⟩) :
    (block kind body).tryEditBlocks f s = ⟨s₁, block kind body', some e⟩ := by
  rw [tryEditBlocks, h]

theorem tryEditBody_cons_ok (h : n.tryEditBlocks f s = ⟨s₁, n', none⟩) :
    tryEditBody f s (n :: ns) = ⟨(tryEditBody f s₁ ns).state, n' :: (tryEditBody f s₁ ns).value,
      (tryEditBody f s₁ ns).failure⟩ := by
  rw [tryEditBody, h]

theorem tryEditBody_cons_failed (h : n.tryEditBlocks f s = ⟨s₁, n', some e⟩) :
    tryEditBody f s (n :: ns) = ⟨s₁, n' :: ns, some e⟩ := by
  rw [tryEditBody, h]

end Steps

/-- What a walk that ends at the first failure returns, where the whole walk makes `calls` and
returns `whole` in the state `s'`. -/
inductive Tried (f : σ → Block → Attempt σ ε Block) (log calls : List (Call σ)) (whole : α)
    (s' : σ) : Attempt (σ × List (Call σ)) ε α → Prop
  | through (h : ∀ c ∈ calls, c.failure f = none) :
      Tried f log calls whole s' ⟨(s', log ++ calls), whole, none⟩
  | failed {done rest : List (Call σ)} {c : Call σ} {e : ε} (part : α)
      (hcalls : calls = done ++ c :: rest) (hdone : ∀ d ∈ done, d.failure f = none)
      (hc : c.failure f = some e) :
      Tried f log calls whole s' ⟨(c.after, log ++ (done ++ [c])), part, some e⟩

theorem Tried.through_nil {f : σ → Block → Attempt σ ε Block} {log : List (Call σ)} {whole : α}
    {s : σ} : Tried f log [] whole s ⟨(s, log), whole, none⟩ := by
  have h : Tried f log [] whole s ⟨(s, log ++ []), whole, none⟩ := .through nofun
  rwa [List.append_nil] at h

mutual

theorem tryEditBlocks_tried (f : σ → Block → Attempt σ ε Block) : (n : Node) → (s : σ) →
    (log : List (Call σ)) → ∃ n' s' calls, n.editBlocksM (regardless f) s = (n', s') ∧
      n.editBlocksM (noting (regardless f)) (s, log) = (n', s', log ++ calls) ∧
      Threads (regardless f) s calls s' ∧
      Tried f log calls n' s' (n.tryEditBlocks (notingAttempts f) (s, log))
  | leaf inst, s, log => by
    refine ⟨leaf inst, s, [], ?_, ?_, rfl, ?_⟩
    · rw [editBlocksM]
      rfl
    · rw [editBlocksM, List.append_nil]
      rfl
    · rw [tryEditBlocks]
      exact .through_nil
  | block kind body, s, log => by
    obtain ⟨body', s₁, calls, hrun, hnoted, hthreads, htried⟩ := tryEditBody_tried f body s log
    let call : Call σ := ⟨s₁, ⟨kind, body'⟩, (f s₁ ⟨kind, body'⟩).value, (f s₁ ⟨kind, body'⟩).state⟩
    refine ⟨call.made.toNode, call.after, calls ++ [call], editBlocksM_block_run hrun, ?_, ?_, ?_⟩
    · rw [editBlocksM_block_run hnoted, ← List.append_assoc]
      rfl
    · exact hthreads.append ⟨rfl, rfl, rfl⟩
    · generalize hr : tryEditBody (notingAttempts f) (s, log) body = r at htried
      cases htried with
      | through h =>
        rw [tryEditBlocks_block_ok hr]
        change Tried f log _ _ _
          ⟨(call.after, log ++ calls ++ [call]), call.made.toNode, call.failure f⟩
        rw [List.append_assoc]
        cases hc : call.failure f with
        | none => exact .through (by simpa [or_imp, forall_and] using ⟨h, hc⟩)
        | some e => exact .failed _ rfl h hc
      | failed part hcalls hdone hc =>
        rw [tryEditBlocks_block_failed hr]
        exact .failed _ (by rw [hcalls, List.append_assoc, List.cons_append]) hdone hc

theorem tryEditBody_tried (f : σ → Block → Attempt σ ε Block) : (ns : List Node) → (s : σ) →
    (log : List (Call σ)) → ∃ ns' s' calls, editBodyM (regardless f) ns s = (ns', s') ∧
      editBodyM (noting (regardless f)) ns (s, log) = (ns', s', log ++ calls) ∧
      Threads (regardless f) s calls s' ∧
      Tried f log calls ns' s' (tryEditBody (notingAttempts f) (s, log) ns)
  | [], s, log => by
    refine ⟨[], s, [], ?_, ?_, rfl, ?_⟩
    · rw [editBodyM]
      rfl
    · rw [editBodyM, List.append_nil]
      rfl
    · rw [tryEditBody]
      exact .through_nil
  | n :: ns, s, log => by
    obtain ⟨n', s₁, calls, hrun, hnoted, hthreads, htried⟩ := tryEditBlocks_tried f n s log
    obtain ⟨ns', s₂, calls', hrun', hnoted', hthreads', htried'⟩ :=
      tryEditBody_tried f ns s₁ (log ++ calls)
    refine ⟨n' :: ns', s₂, calls ++ calls', editBodyM_cons_run hrun hrun', ?_,
      hthreads.append hthreads', ?_⟩
    · rw [editBodyM_cons_run hnoted hnoted', List.append_assoc]
    · generalize hr : n.tryEditBlocks (notingAttempts f) (s, log) = r at htried
      cases htried with
      | through h =>
        rw [tryEditBody_cons_ok hr]
        generalize tryEditBody (notingAttempts f) (s₁, log ++ calls) ns = r' at htried'
        cases htried' with
        | through h' =>
          rw [List.append_assoc]
          exact .through (by simpa [or_imp, forall_and] using ⟨h, h'⟩)
        | failed part hcalls hdone hc =>
          rw [List.append_assoc, ← List.append_assoc calls]
          refine .failed _ (by rw [hcalls, List.append_assoc]) ?_ hc
          simpa [or_imp, forall_and] using ⟨h, hdone⟩
      | failed part hcalls hdone hc =>
        rw [tryEditBody_cons_failed hr]
        exact .failed _ (by rw [hcalls, List.append_assoc, List.cons_append]) hdone hc

end

structure Fits (made : Address → Option Node) (done : List (Site × Call σ)) (left : List Site) :
    Prop where
  done : ∀ x ∈ done, made x.1.address = some x.2.made.toNode
  left : ∀ x ∈ left, made x.address = none

/-- A walk that has got through the sites of `done` and not to those of `left`. The visitor was given
each block as it stood, and the walk returns what it got in the same way. -/
structure Partway (stand : (Address → Option Node) → α) (done : List (Site × Call σ))
    (left : List Site) (value : α) : Prop where
  value : ∀ {made}, Fits made done left → value = stand made
  given : ∀ {made}, Fits made done left → ∀ x ∈ done, x.2.given = x.1.block.standing made x.1.address

theorem Fits.of_append {made : Address → Option Node} {done done' : List (Site × Call σ)}
    {left : List Site} (h : Fits made (done ++ done') left) :
    Fits made done [] ∧ Fits made done' left :=
  ⟨⟨fun x hx => h.done x (List.mem_append_left _ hx), nofun⟩,
    fun x hx => h.done x (List.mem_append_right _ hx), h.left⟩

theorem Fits.of_append_left {made : Address → Option Node} {done : List (Site × Call σ)}
    {left left' : List Site} (h : Fits made done (left ++ left')) :
    Fits made done left ∧ ∀ x ∈ left', made x.address = none :=
  ⟨⟨h.done, fun x hx => h.left x (List.mem_append_left _ hx)⟩,
    fun x hx => h.left x (List.mem_append_right _ hx)⟩

namespace Partway

variable {done done' : List (Site × Call σ)} {left : List Site} {p : Address} {i : Nat}
  {kind : BlockKind} {body body' ns ns' : List Node} {n n' : Node}

theorem inside (h : Partway (bodyStanding · p 0 body) done left body') :
    Partway ((block kind body).standing · p) done (left ++ [⟨p, ⟨kind, body⟩⟩])
      (block kind body') where
  value hfits := by
    obtain ⟨hbody, hblock⟩ := hfits.of_append_left
    rw [standing, hblock _ (List.mem_singleton_self _), h.value hbody, Option.getD_none]
  given hfits := h.given hfits.of_append_left.1

theorem call {c : Call σ} (h : Partway (bodyStanding · p 0 body) done [] body')
    (hc : c.given = ⟨kind, body'⟩) :
    Partway ((block kind body).standing · p) (done ++ [(⟨p, kind, body⟩, c)]) [] c.made.toNode where
  value hfits := by
    rw [standing, hfits.of_append.2.done _ (List.mem_singleton_self _), Option.getD_some]
  given hfits x hx := by
    rcases List.mem_append.mp hx with hx | hx
    · exact h.given hfits.of_append.1 x hx
    · rw [List.mem_singleton.mp hx, hc, h.value hfits.of_append.1]
      rfl

theorem first (h : Partway (n.standing · (p ++ [i])) done left n') :
    Partway (bodyStanding · p i (n :: ns)) done (left ++ bodySites p (i + 1) ns) (n' :: ns) where
  value hfits := by
    obtain ⟨hfirst, hrest⟩ := hfits.of_append_left
    rw [bodyStanding, h.value hfirst, bodyStanding_of_none p (i + 1) ns hrest]
  given hfits := h.given hfits.of_append_left.1

theorem cons (h : Partway (n.standing · (p ++ [i])) done [] n')
    (h' : Partway (bodyStanding · p (i + 1) ns) done' left ns') :
    Partway (bodyStanding · p i (n :: ns)) (done ++ done') left (n' :: ns') where
  value hfits := by
    obtain ⟨hfirst, hrest⟩ := hfits.of_append
    rw [bodyStanding, h.value hfirst, h'.value hrest]
  given hfits x hx := by
    obtain ⟨hfirst, hrest⟩ := hfits.of_append
    rcases List.mem_append.mp hx with hx | hx
    · exact h.given hfirst x hx
    · exact h'.given hrest x hx

end Partway

mutual

theorem tryEditBlocks_partway (f : σ → Block → Attempt σ ε Block) (p : Address) : (n : Node) →
    (s : σ) → (log : List (Call σ)) → ∃ done left s' n' failure,
      n.sitesFrom p = done.map Prod.fst ++ left ∧ (failure = none → left = []) ∧
      n.tryEditBlocks f s = ⟨s', n', failure⟩ ∧
      n.tryEditBlocks (notingAttempts f) (s, log) = ⟨(s', log ++ done.map Prod.snd), n', failure⟩ ∧
      Partway (n.standing · p) done left n'
  | leaf inst, s, log => by
    refine ⟨[], [], s, leaf inst, none, ?_, fun _ => rfl, ?_, ?_, ?_, nofun⟩
    · rw [sitesFrom]
      rfl
    · rw [tryEditBlocks]
    · rw [tryEditBlocks, List.map_nil, List.append_nil]
    · intro made _
      rw [standing]
  | block kind body, s, log => by
    obtain ⟨done, left, s₁, body', failure, hsites, hleft, hrun, hnoted, hpart⟩ :=
      tryEditBody_partway f p 0 body s log
    cases failure with
    | some e =>
      -- the walk has ended in the body, and the block itself is one more site left
      refine ⟨done, left ++ [⟨p, ⟨kind, body⟩⟩], s₁, block kind body', some e, ?_, nofun, ?_, ?_, ?_⟩
      · rw [sitesFrom, hsites, List.append_assoc]
      · exact tryEditBlocks_block_failed hrun
      · exact tryEditBlocks_block_failed hnoted
      · exact hpart.inside
    | none =>
      obtain rfl := hleft rfl
      rw [List.append_nil] at hsites
      let r := f s₁ ⟨kind, body'⟩
      let c : Call σ := ⟨s₁, ⟨kind, body'⟩, r.value, r.state⟩
      refine ⟨done ++ [(⟨p, ⟨kind, body⟩⟩, c)], [], r.state, r.value.toNode, r.failure, ?_,
        fun _ => rfl, ?_, ?_, hpart.call rfl⟩
      · rw [sitesFrom, hsites, List.map_append, List.append_nil]
        rfl
      · exact tryEditBlocks_block_ok hrun
      · rw [tryEditBlocks_block_ok hnoted, List.map_append, ← List.append_assoc]
        rfl

theorem tryEditBody_partway (f : σ → Block → Attempt σ ε Block) (p : Address) (i : Nat) :
    (ns : List Node) → (s : σ) → (log : List (Call σ)) → ∃ done left s' ns' failure,
      bodySites p i ns = done.map Prod.fst ++ left ∧ (failure = none → left = []) ∧
      tryEditBody f s ns = ⟨s', ns', failure⟩ ∧
      tryEditBody (notingAttempts f) (s, log) ns = ⟨(s', log ++ done.map Prod.snd), ns', failure⟩ ∧
      Partway (bodyStanding · p i ns) done left ns'
  | [], s, log => by
    refine ⟨[], [], s, [], none, ?_, fun _ => rfl, ?_, ?_, ?_, nofun⟩
    · rw [bodySites]
      rfl
    · rw [tryEditBody]
    · rw [tryEditBody, List.map_nil, List.append_nil]
    · intro made _
      rw [bodyStanding]
  | n :: ns, s, log => by
    obtain ⟨done, left, s₁, n', failure, hsites, hleft, hrun, hnoted, hpart⟩ :=
      tryEditBlocks_partway f (p ++ [i]) n s log
    cases failure with
    | some e =>
      refine ⟨done, left ++ bodySites p (i + 1) ns, s₁, n' :: ns, some e, ?_, nofun, ?_, ?_,
        hpart.first⟩
      · rw [bodySites, hsites, List.append_assoc]
      · exact tryEditBody_cons_failed hrun
      · exact tryEditBody_cons_failed hnoted
    | none =>
      obtain rfl := hleft rfl
      rw [List.append_nil] at hsites
      obtain ⟨done', left', s₂, ns', failure, hsites', hleft', hrun', hnoted', hpart'⟩ :=
        tryEditBody_partway f p (i + 1) ns s₁ (log ++ done.map Prod.snd)
      refine ⟨done ++ done', left', s₂, n' :: ns', failure, ?_, hleft', ?_, ?_, hpart.cons hpart'⟩
      · rw [bodySites, hsites, hsites', List.map_append, List.append_assoc]
      · rw [tryEditBody_cons_ok hrun, hrun']
      · rw [tryEditBody_cons_ok hnoted, hnoted', List.map_append, List.append_assoc]

end

def madeAt (done : List (Site × Call σ)) (q : Address) : Option Node :=
  (done.find? fun x => x.1.address = q).map fun x => x.2.made.toNode

theorem madeAt_eq_none {done : List (Site × Call σ)} {q : Address}
    (h : ∀ x ∈ done, x.1.address ≠ q) : madeAt done q = none := by
  rw [madeAt, List.find?_eq_none.mpr (by simpa using h), Option.map_none]

theorem madeAt_of_mem {done : List (Site × Call σ)} {x : Site × Call σ}
    (h : (done.map Prod.fst).Pairwise fun x y => x.address.Before y.address) (hx : x ∈ done) :
    madeAt done x.1.address = some x.2.made.toNode := by
  induction done with
  | nil => cases hx
  | cons y done ih =>
    rw [List.map_cons, List.pairwise_cons] at h
    rcases List.mem_cons.mp hx with rfl | hx
    · simp [madeAt]
    · have hne : y.1.address ≠ x.1.address := by
        intro he
        have hbefore := h.1 x.1 (List.mem_map_of_mem hx)
        exact Address.Before.irrefl _ (he ▸ hbefore)
      rw [← ih h.2 hx, madeAt, madeAt, List.find?_cons_of_neg (by simpa using hne)]

theorem fits_madeAt {done : List (Site × Call σ)} {left : List Site}
    (h : (done.map Prod.fst ++ left).Pairwise fun x y => x.address.Before y.address) :
    Fits (madeAt done) done left := by
  rw [List.pairwise_append] at h
  refine ⟨fun x hx => madeAt_of_mem h.1 hx, fun x hx => madeAt_eq_none ?_⟩
  rintro y hy he
  exact Address.Before.irrefl _ (he ▸ h.2.2 y.1 (List.mem_map_of_mem hy) x hx)

structure HandsOver (done : List (Site × Call σ)) (x : Site × Call σ) : Prop where
  kind : x.2.given.kind = x.1.block.kind
  length : x.2.given.body.length = x.1.block.body.length
  leaves : ∀ (j : Nat) inst, x.1.block.body[j]? = some (leaf inst) →
    x.2.given.body[j]? = some (leaf inst)
  blocks : ∀ (j : Nat) kind body, x.1.block.body[j]? = some (block kind body) →
    ∃ c, (⟨x.1.address ++ [j], kind, body⟩, c) ∈ done ∧ x.2.given.body[j]? = some c.made.toNode

structure Visits (g : Block → StateM σ Block) (s : σ) (t : Node) (done : List (Site × Call σ)) :
    Prop where
  sites : done.map Prod.fst = t.sites
  noted : t.editBlocksM (noting g) (s, []) =
    ((t.editBlocksM g s).1, (t.editBlocksM g s).2, done.map Prod.snd)
  threads : Threads g s (done.map Prod.snd) (t.editBlocksM g s).2
  handsOver : ∀ x ∈ done, HandsOver done x
  value : (t.editBlocksM g s).1 = t.standing (madeAt done) []

theorem handsOver_of_standing {t : Node} {done : List (Site × Call σ)} {x : Site × Call σ}
    (hsites : done.map Prod.fst = t.sites) (hx : x ∈ done)
    (h : x.2.given = x.1.block.standing (madeAt done) x.1.address) : HandsOver done x := by
  have hordered : (done.map Prod.fst).Pairwise _ := hsites ▸ t.sites_pairwise
  rw [Block.standing] at h
  refine ⟨by rw [h], by rw [h, length_bodyStanding], ?_, ?_⟩
  · intro j inst hj
    rw [h, getElem?_bodyStanding, hj, Option.map_some, standing]
  · intro j kind body hj
    have hsite : ⟨x.1.address ++ [j], kind, body⟩ ∈ done.map Prod.fst := by
      have hat := mem_sites.mp (hsites ▸ List.mem_map_of_mem hx : x.1 ∈ t.sites)
      rw [hsites, mem_sites, at?_append, hat]
      exact at?_cons_eq_some.mpr ⟨_, _, _, rfl, hj, at?_nil _⟩
    obtain ⟨⟨site, c⟩, hc, rfl⟩ := List.mem_map.mp hsite
    refine ⟨c, hc, ?_⟩
    rw [h, getElem?_bodyStanding, hj, Option.map_some, standing, Nat.zero_add,
      madeAt_of_mem hordered hc, Option.getD_some]

theorem visits (g : Block → StateM σ Block) (s : σ) (t : Node) : ∃ done, Visits g s t done := by
  -- the walk is one that could end early, with a visitor that gives it no reason to
  let f : σ → Block → Attempt σ Empty Block := fun s b => ⟨(g b s).2, (g b s).1, none⟩
  obtain ⟨t', s', calls, hrun, hnoted, hthreads, htried⟩ := tryEditBlocks_tried f t s []
  obtain ⟨done, left, s₁, t₁, failure, hsites, hleft, -, htry, hpart⟩ :=
    tryEditBlocks_partway f [] t s []
  rw [htry] at htried
  generalize hr : (⟨(s₁, [] ++ done.map Prod.snd), t₁, failure⟩ : Attempt _ Empty _) = r at htried
  cases htried with
  | failed part hcalls hdone hc => cases hc
  | through h =>
    simp only [Attempt.mk.injEq, Prod.mk.injEq, List.nil_append] at hr
    obtain ⟨⟨rfl, rfl⟩, rfl, rfl⟩ := hr
    obtain rfl := hleft rfl
    change t.sites = _ at hsites
    have hfits := fits_madeAt (hsites ▸ t.sites_pairwise)
    rw [List.append_nil] at hsites
    change t.editBlocksM g s = _ at hrun
    refine ⟨done, hsites.symm, ?_, ?_, ?_, ?_⟩
    · rw [hrun]
      exact hnoted
    · rw [hrun]
      exact hthreads
    · intro x hx
      exact handsOver_of_standing hsites.symm hx (hpart.given hfits x hx)
    · rw [hrun]
      exact hpart.value hfits

theorem tryEditBlocks_eq_noted (f : σ → Block → Attempt σ ε Block) (s : σ) (t : Node) :
    let r := t.tryEditBlocks (notingAttempts f) (s, [])
    t.tryEditBlocks f s = ⟨r.state.1, r.value, r.failure⟩ := by
  obtain ⟨done, left, s', t', failure, -, -, hrun, hnoted, -⟩ := tryEditBlocks_partway f [] t s []
  rw [hrun, hnoted]

section FirstFailure

variable {f : σ → Block → Attempt σ ε Block} {s : σ} {t : Node}
  {done first rest : List (Site × Call σ)} {x : Site × Call σ}

theorem Visits.tried (h : Visits (regardless f) s t done) :
    Tried f [] (done.map Prod.snd) (t.editBlocksM (regardless f) s).1
      (t.editBlocksM (regardless f) s).2 (t.tryEditBlocks (notingAttempts f) (s, [])) := by
  obtain ⟨t', s', calls, hrun, hnoted, -, htried⟩ := tryEditBlocks_tried f t s []
  have hcalls : done.map Prod.snd = calls :=
    congrArg (fun r : Node × σ × List (Call σ) => r.2.2) (h.noted.symm.trans hnoted)
  rw [hrun, hcalls]
  exact htried

theorem Visits.through (h : Visits (regardless f) s t done)
    (hnone : ∀ x ∈ done, x.2.failure f = none) :
    t.tryEditBlocks (notingAttempts f) (s, []) =
      ⟨((t.editBlocksM (regardless f) s).2, done.map Prod.snd), (t.editBlocksM (regardless f) s).1,
        none⟩ := by
  have htried := h.tried
  generalize t.tryEditBlocks (notingAttempts f) (s, []) = r at htried
  cases htried with
  | through => rfl
  | @failed _ _ c _ _ hcalls _ hc =>
    have hmem : c ∈ done.map Prod.snd := hcalls ▸ List.mem_append_cons_self
    obtain ⟨x, hx, rfl⟩ := List.mem_map.mp hmem
    rw [hnone x hx] at hc
    cases hc

theorem first_unique {P : α → Prop} {a a' b b' : List α} {c c' : α}
    (h : a ++ c :: b = a' ++ c' :: b') (ha : ∀ d ∈ a, P d) (ha' : ∀ d ∈ a', P d) (hc : ¬P c)
    (hc' : ¬P c') : a = a' ∧ c = c' := by
  rcases List.append_eq_append_iff.mp h with ⟨d, rfl, hd⟩ | ⟨d, rfl, hd⟩
  · cases d with
    | nil => exact ⟨(List.append_nil a).symm, (List.cons.inj hd).1⟩
    | cons d ds =>
      obtain ⟨rfl, -⟩ := List.cons.inj hd
      exact absurd (ha' c (by simp)) hc
  · cases d with
    | nil => exact ⟨List.append_nil a', (List.cons.inj hd).1.symm⟩
    | cons d ds =>
      obtain ⟨rfl, -⟩ := List.cons.inj hd
      exact absurd (ha c' (by simp)) hc'

theorem Visits.failed {e : ε} (h : Visits (regardless f) s t (first ++ x :: rest))
    (hfirst : ∀ y ∈ first, y.2.failure f = none) (hx : x.2.failure f = some e) :
    t.tryEditBlocks (notingAttempts f) (s, []) =
      ⟨(x.2.after, (first ++ [x]).map Prod.snd), t.standing (madeAt (first ++ [x])) [], some e⟩ := by
  have htried := h.tried
  obtain ⟨done, left, s₁, t₁, failure, hsites, -, -, htry, hpart⟩ :=
    tryEditBlocks_partway f [] t s []
  rw [htry] at htried ⊢
  generalize hr : (⟨(s₁, [] ++ done.map Prod.snd), t₁, failure⟩ : Attempt _ ε _) = r at htried
  cases htried with
  | through hnone =>
    have hx' := hnone x.2 (by simp)
    rw [hx] at hx'
    cases hx'
  | @failed calls rest' c e' part hcalls hdone hc =>
    rw [List.map_append, List.map_cons] at hcalls
    have hnone : ∀ d ∈ first.map Prod.snd, d.failure f = none := List.forall_mem_map.mpr hfirst
    obtain ⟨rfl, rfl⟩ := first_unique hcalls hnone hdone (by simp [hx]) (by simp [hc])
    obtain rfl := Option.some.inj (hx.symm.trans hc)
    simp only [Attempt.mk.injEq, Prod.mk.injEq, List.nil_append] at hr
    obtain ⟨⟨rfl, hcalled⟩, rfl, rfl⟩ := hr
    -- the walk has come to as many sites as it has noted calls
    have hcame : done.map Prod.fst = first.map Prod.fst ++ [x.1] := by
      have hlength := congrArg List.length hcalled
      have hall : first.map Prod.fst ++ [x.1] ++ rest.map Prod.fst = done.map Prod.fst ++ left := by
        rw [← hsites, ← Node.sites, ← h.sites]
        simp
      exact (List.append_inj_left hall (by simpa using hlength.symm)).symm
    have hdone' : done = first ++ [x] := by
      rw [List.zip_of_prod hcame hcalled]
      exact (List.zip_of_prod (by simp) (by simp)).symm
    rw [hdone'] at hsites hpart
    change t.sites = _ at hsites
    rw [hpart.value (fits_madeAt (hsites ▸ t.sites_pairwise)), List.nil_append, List.map_append]
    rfl

theorem standing_after (hsites : (first ++ x :: rest).map Prod.fst = t.sites) {y : Site × Call σ}
    (hy : y ∈ rest) :
    (t.standing (madeAt (first ++ [x])) []).at? y.1.address =
        some (y.1.block.standing (madeAt (first ++ [x])) y.1.address).toNode ∧
      (¬y.1.address <+: x.1.address →
        y.1.block.standing (madeAt (first ++ [x])) y.1.address = y.1.block) := by
  have hordered := t.sites_pairwise
  rw [← hsites, List.append_cons, List.map_append, List.pairwise_append] at hordered
  obtain ⟨hdone, -, hbefore⟩ := hordered
  rw [List.map_append, List.pairwise_append] at hdone
  have hlater (z : Site × Call σ) (hz : z ∈ first ++ [x]) : z.1.address.Before y.1.address :=
    hbefore z.1 (List.mem_map_of_mem hz) y.1 (List.mem_map_of_mem hy)
  have hat : t.at? y.1.address = some y.1.block.toNode :=
    mem_sites.mp (hsites ▸ List.mem_map_of_mem (List.mem_append_right _ (List.mem_cons_of_mem x hy)))
  constructor
  · have hself : madeAt (first ++ [x]) y.1.address = none := by
      apply madeAt_eq_none
      intro z hz he
      exact Address.Before.irrefl _ (he ▸ hlater z hz)
    have haround : ∀ r, r <+: y.1.address → r ≠ y.1.address →
        madeAt (first ++ [x]) ([] ++ r) = none := by
      intro r hr hne
      apply madeAt_eq_none
      rintro z hz rfl
      exact (hlater z hz).asymm (.of_enclosed hr hne)
    rw [at?_standing hat haround, List.nil_append, Block.toNode, standing, hself, Option.getD_none]
    rfl
  · intro hout
    rw [Block.standing, bodyStanding_of_none]
    intro z hz
    obtain ⟨j, q, -, -, hzq, -⟩ := (mem_bodySites _ 0 _).mp hz
    have hin : y.1.address <+: z.address := hzq ▸ List.prefix_append _ _
    apply madeAt_eq_none
    intro w hw he
    -- a call inside `y` before the one at `x`, which is before `y`, puts `x` inside `y`
    rcases List.mem_append.mp hw with hw | hw
    · have hwx : w.1.address.Before x.1.address :=
        hdone.2.2 w.1 (List.mem_map_of_mem hw) x.1 (by simp)
      exact hout (hwx.enclosed (hlater x (by simp)) (he ▸ hin))
    · obtain rfl := List.mem_singleton.mp hw
      exact hout (he ▸ hin)

end FirstFailure

def notingAnswers (p : Block → StateM σ Bool) (b : Block) : StateM (σ × List (Block × Bool)) Bool :=
  fun (s, log) =>
    let (answer, s') := p b s
    (answer, s', log ++ [(b, answer)])

structure Asked (p : Block → StateM σ Bool) (bs : List Block) (result : Bool)
    (asked : List (Block × Bool)) (left : List Block) : Prop where
  blocks : bs = asked.map Prod.fst ++ left
  answers : ∀ x ∈ asked, ∃ s, x.2 = (p x.1 s).1
  found : result = true → ∃ first b, asked = first ++ [(b, true)] ∧ ∀ x ∈ first, x.2 = false
  missed : result = false → left = [] ∧ ∀ x ∈ asked, x.2 = false

theorem anyM_cons_run {p : Block → StateM σ Bool} {b : Block} {bs : List Block} {s s₁ : σ}
    {answer : Bool} (h : p b s = (answer, s₁)) :
    (b :: bs).anyM p s = if answer then (true, s₁) else bs.anyM p s₁ := by
  rw [List.anyM_cons]
  change StateT.bind (p b) _ s = _
  simp only [StateT.bind, h]
  cases answer <;> rfl

theorem anyM_asked (p : Block → StateM σ Bool) (bs : List Block) (s : σ)
    (log : List (Block × Bool)) : ∃ result s' asked left, bs.anyM p s = (result, s') ∧
      bs.anyM (notingAnswers p) (s, log) = (result, s', log ++ asked) ∧
      Asked p bs result asked left := by
  induction bs generalizing s log with
  | nil =>
    refine ⟨false, s, [], [], rfl, ?_, rfl, nofun, nofun, fun _ => ⟨rfl, nofun⟩⟩
    rw [List.append_nil]
    rfl
  | cons b bs ih =>
    obtain ⟨⟨answer, s₁⟩, hp⟩ : ∃ r, p b s = r := ⟨_, rfl⟩
    have hnoted : notingAnswers p b (s, log) = (answer, s₁, log ++ [(b, answer)]) := by
      simp only [notingAnswers, hp]
    rw [anyM_cons_run hp, anyM_cons_run hnoted]
    cases answer with
    | true =>
      refine ⟨true, s₁, [(b, true)], bs, rfl, rfl, rfl, ?_, fun _ => ⟨[], b, rfl, nofun⟩, nofun⟩
      intro x hx
      rw [List.mem_singleton.mp hx]
      exact ⟨s, by rw [hp]⟩
    | false =>
      obtain ⟨result, s', asked, left, hrun, hnoted', hasked⟩ := ih s₁ (log ++ [(b, false)])
      refine ⟨result, s', (b, false) :: asked, left, hrun, ?_, ?_⟩
      · rw [List.append_cons log (b, false) asked]
        exact hnoted'
      · refine ⟨by rw [hasked.blocks, List.map_cons, List.cons_append], ?_, ?_, ?_⟩
        · exact List.forall_mem_cons.mpr ⟨⟨s, by rw [hp]⟩, hasked.answers⟩
        · intro hfound
          obtain ⟨first, c, rfl, hfirst⟩ := hasked.found hfound
          exact ⟨(b, false) :: first, c, rfl, List.forall_mem_cons.mpr ⟨rfl, hfirst⟩⟩
        · intro hmissed
          obtain ⟨hleft, hasked⟩ := hasked.missed hmissed
          exact ⟨hleft, List.forall_mem_cons.mpr ⟨rfl, hasked⟩⟩

theorem Asked.iff_exists {p : Block → StateM σ Bool} {bs left : List Block} {result : Bool}
    {asked : List (Block × Bool)} (h : Asked p bs result asked left) {q : Block → Bool}
    (hq : ∀ b s, (p b s).1 = q b) : result = true ↔ ∃ b ∈ bs, q b = true := by
  have hanswers : ∀ x ∈ asked, x.2 = q x.1 := by
    intro x hx
    obtain ⟨s, hs⟩ := h.answers x hx
    rw [hs, hq]
  constructor
  · intro hfound
    obtain ⟨first, b, rfl, -⟩ := h.found hfound
    refine ⟨b, by simp [h.blocks], (hanswers (b, true) (by simp)).symm⟩
  · rintro ⟨b, hb, hqb⟩
    by_contra hmissed
    obtain ⟨rfl, hno⟩ := h.missed (Bool.not_eq_true _ ▸ hmissed)
    rw [h.blocks, List.append_nil] at hb
    obtain ⟨x, hx, rfl⟩ := List.mem_map.mp hb
    rw [← hanswers x hx, hno x hx] at hqb
    cases hqb

/-- The sites of a tree are its blocks where they are, nested ones first and from left to right. A
walk that edits all blocks calls its visitor once at each site. One that ends at a failure makes the
same calls up to the first that fails; of the sites after it, those that are not around it are left
as they were, and those around it keep their kind and their children in their places. A search asks
about the blocks up to the first that is the one. -/
theorem walks_keep_to_sites :
    (∀ t : Node, (∀ q b, ⟨q, b⟩ ∈ t.sites ↔ t.at? q = some b.toNode) ∧
      t.sites.map Site.block = t.blocks ∧
      t.sites.Pairwise fun x y => x.address.Before y.address) ∧
    (∀ (g : Block → StateM σ Block) s t, ∃ done, Visits g s t done) ∧
    (∀ (f : σ → Block → Attempt σ ε Block) s t,
      let r := t.tryEditBlocks (notingAttempts f) (s, [])
      t.tryEditBlocks f s = ⟨r.state.1, r.value, r.failure⟩ ∧
      ∀ done, Visits (regardless f) s t done →
        ((∀ x ∈ done, x.2.failure f = none) →
          r = ⟨((t.editBlocksM (regardless f) s).2, done.map Prod.snd),
            (t.editBlocksM (regardless f) s).1, none⟩) ∧
        ∀ first x rest e, done = first ++ x :: rest → (∀ y ∈ first, y.2.failure f = none) →
          x.2.failure f = some e →
          r.failure = some e ∧ r.state = (x.2.after, (first ++ [x]).map Prod.snd) ∧
          ∀ y ∈ rest,
            (¬y.1.address <+: x.1.address → r.value.at? y.1.address = some y.1.block.toNode) ∧
            (y.1.address <+: x.1.address → ∃ body,
              r.value.at? y.1.address = some (block y.1.block.kind body) ∧
              body.length = y.1.block.body.length ∧
              ∀ (j : Nat) n, y.1.block.body[j]? = some n →
                body[j]? = some (n.standing (madeAt (first ++ [x])) (y.1.address ++ [j])))) ∧
    ∀ (p : Block → StateM σ Bool) s (t : Node), ∃ asked left,
      t.anyBlockM (notingAnswers p) (s, []) =
        ((t.anyBlockM p s).1, (t.anyBlockM p s).2, asked) ∧
      Asked p t.blocks (t.anyBlockM p s).1 asked left ∧
      ∀ q : Block → Bool, (∀ b s, (p b s).1 = q b) →
        ((t.anyBlockM p s).1 = true ↔ ∃ b ∈ t.blocks, q b = true) := by
  refine ⟨?_, visits, ?_, ?_⟩
  · intro t
    exact ⟨fun q b => mem_sites, map_block_sitesFrom [] t, t.sites_pairwise⟩
  · intro f s t
    refine ⟨tryEditBlocks_eq_noted f s t, ?_⟩
    rintro done hvisits
    refine ⟨hvisits.through, ?_⟩
    rintro first x rest e rfl hfirst hx
    rw [hvisits.failed hfirst hx]
    refine ⟨rfl, rfl, ?_⟩
    intro y hy
    obtain ⟨hat, hunchanged⟩ := standing_after hvisits.sites hy
    constructor
    · intro hout
      rw [hat, hunchanged hout]
    · intro _
      refine ⟨_, hat, length_bodyStanding .., ?_⟩
      intro j n hj
      rw [Block.standing, getElem?_bodyStanding, hj, Nat.zero_add, Option.map_some]
  · intro p s t
    obtain ⟨result, s', asked, left, hrun, hnoted, hasked⟩ := anyM_asked p t.blocks s []
    change t.anyBlockM p s = _ at hrun
    rw [hrun]
    exact ⟨asked, left, hnoted, hasked, fun q hq => hasked.iff_exists hq⟩

theorem walks_keep_to_sites_second_call :
    let f : Nat → Block → Attempt Nat Unit Block := fun k b =>
      ⟨k + 1, { b with body := b.body ++ [.loop []] }, if k = 1 then some () else none⟩
    let t : Node := .program [.loop [.loop []], .loop [.leaf (.output 0)]]
    let r := t.tryEditBlocks (notingAttempts f) (0, [])
    r.failure = some () ∧ r.state.1 = 2 ∧ r.value.at? [1] = some (.loop [.leaf (.output 0)]) ∧
      ∃ body, r.value.at? [] = some (.program body) ∧ body.length = 2 := by
  intro f t r
  obtain ⟨-, hvisits, htries, -⟩ := walks_keep_to_sites (σ := Nat) (ε := Unit)
  obtain ⟨done, hdone⟩ := hvisits (regardless f) 0 t
  let a : Site × Call Nat := (⟨[0, 0], .loop, []⟩, ⟨0, ⟨.loop, []⟩, ⟨.loop, [.loop []]⟩, 1⟩)
  let x : Site × Call Nat := (⟨[0], .loop, [.loop []]⟩,
    ⟨1, ⟨.loop, [.loop [.loop []]]⟩, ⟨.loop, [.loop [.loop []], .loop []]⟩, 2⟩)
  let y : Site × Call Nat := (⟨[1], .loop, [.leaf (.output 0)]⟩,
    ⟨2, ⟨.loop, [.leaf (.output 0)]⟩, ⟨.loop, [.leaf (.output 0), .loop []]⟩, 3⟩)
  let z : Site × Call Nat := (⟨[], .program, [.loop [.loop []], .loop [.leaf (.output 0)]]⟩,
    ⟨3, ⟨.program, [x.2.made.toNode, y.2.made.toNode]⟩,
      ⟨.program, [x.2.made.toNode, y.2.made.toNode, .loop []]⟩, 4⟩)
  have hsplit : done = [a] ++ x :: [y, z] := by
    have hcalls := congrArg (fun r : Node × Nat × List (Call Nat) => r.2.2) hdone.noted
    rw [List.zip_of_prod hdone.sites hcalls.symm]
    rfl
  obtain ⟨hfailure, hstate, hrest⟩ :=
    ((htries f 0 t).2 done hdone).2 [a] x [y, z] () hsplit (by decide) (by decide)
  obtain ⟨body, hbody, hlength, -⟩ := (hrest z (by simp)).2 List.nil_prefix
  exact ⟨hfailure, congrArg Prod.fst hstate, (hrest y (by simp)).1 (by decide), body, hbody, hlength⟩

end Brainfuck
