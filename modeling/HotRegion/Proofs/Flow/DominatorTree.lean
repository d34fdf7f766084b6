import HotRegion.Flow.Dominator
import HotRegion.Proofs.Ascending
import HotRegion.Proofs.Flow.Dominance

/-!
# The dominator sets are the dominators

The rounds of `domSets` only ever remove nodes that are no dominators, and what is left when a
round changes nothing is dominated on every path. The weight of the sets, the number of their
members, falls in every other round, so the rounds that are given are enough.

## Key results

- `refineDoms_domSets`: the rounds end because one changes nothing
- `mem_domSets_iff`: the computed set of a reachable node holds exactly its dominators
- `exists_idom`: every reachable node but the entry has an immediate dominator in the tree
- `idom_entry`: the entry has none
-/

namespace HotRegion.Flow

open Ascending (Sorted)

variable {g : Graph} {sets : DomSets} {a b c d : Node} {doms : List Node}

/-! ## Lookup -/

namespace DomSets

/-- A lookup after a replacement. -/
theorem get_set (sets : DomSets) (b c : Node) (doms : List Node) :
    (sets.set b doms).get c = if c = b ∧ b ∈ sets.map Prod.fst then doms else sets.get c := by
  unfold DomSets.get DomSets.set
  induction sets with
  | nil => simp
  | cons p sets ih =>
    obtain ⟨e, s⟩ := p
    by_cases heb : e = b
    · subst heb
      by_cases hce : c = e
      · subst hce
        simp
      · have hbeq : (c == e) = false := by simpa using hce
        simp only [List.map_cons, if_true, List.lookup_cons, hbeq, ih]
        simp [hce]
    · by_cases hce : c = e
      · subst hce
        simp [heb]
      · have hbeq : (c == e) = false := by simpa using hce
        have hbe : b ≠ e := Ne.symm heb
        simp only [List.map_cons, if_neg heb, List.lookup_cons, hbeq, ih, List.mem_cons, hbe,
          false_or]

/-- The nodes stay when a set is replaced. -/
theorem keys_set (sets : DomSets) (b : Node) (doms : List Node) :
    (sets.set b doms).map Prod.fst = sets.map Prod.fst := by
  unfold DomSets.set
  rw [List.map_map]
  refine List.map_congr_left fun p _ => ?_
  by_cases h : p.1 = b <;> simp [h]

/-- The number of members of all sets. -/
def weight : DomSets → Nat
  | [] => 0
  | p :: sets => p.2.length + weight sets

/-- Replacing a set by a part of it does not raise the weight, and keeps it only if nothing
changes. -/
theorem weight_set (hkeys : (sets.map Prod.fst).Nodup) (h : doms.Sublist (sets.get b)) :
    weight (sets.set b doms) ≤ weight sets ∧
      (weight sets ≤ weight (sets.set b doms) → sets.set b doms = sets) := by
  unfold DomSets.set
  unfold DomSets.get at h
  induction sets with
  | nil => simp [weight]
  | cons p sets ih =>
    obtain ⟨e, s⟩ := p
    have ⟨he, hkeys'⟩ := List.nodup_cons.1 hkeys
    by_cases heb : e = b
    · subst heb
      -- The key does not occur again, so the rest of the list stays.
      have hrest : sets.map (fun p => if p.1 = e then (e, doms) else p) = sets := by
        refine (List.map_congr_left fun p hp => ?_).trans (List.map_id _)
        have hpe : p.1 ≠ e := fun h => he (List.mem_map.2 ⟨p, hp, h⟩)
        simp [hpe]
      have hsub : doms.Sublist s := by simpa using h
      have hlen := hsub.length_le
      simp only [List.map_cons, if_true, hrest, weight]
      refine ⟨by omega, fun hle => ?_⟩
      rw [hsub.eq_of_length_le (by omega)]
    · have hbeq : (b == e) = false := by simpa using Ne.symm heb
      simp only [List.lookup_cons, hbeq] at h
      obtain ⟨hle, heq⟩ := ih hkeys' h
      simp only [List.map_cons, if_neg heb, weight]
      refine ⟨by omega, fun hge => ?_⟩
      rw [heq (by omega)]

end DomSets

/-- The members of an ascending list of nodes after an insertion. -/
@[simp] theorem mem_insert (x z : Node) (l : List Node) : z ∈ insert x l ↔ z = x ∨ z ∈ l :=
  Ascending.mem_insert (fun _ _ h => h) x z l

namespace Graph

/-! ## Meets -/

/-- The intersection has what is in all sets. -/
private theorem mem_foldl_filter (sets : DomSets) (ps : List Node) (acc : List Node) (a : Node) :
    a ∈ ps.foldl (fun acc q => acc.filter ((sets.get q).contains ·)) acc ↔
      a ∈ acc ∧ ∀ q ∈ ps, a ∈ sets.get q := by
  induction ps generalizing acc with
  | nil => simp
  | cons p ps ih =>
    rw [List.foldl_cons, ih]
    simp only [List.mem_filter, List.contains_iff_mem, List.mem_cons, forall_eq_or_imp]
    exact and_assoc

/-- The meet over the predecessors holds the node itself and what all predecessors have. -/
theorem mem_meetDoms (sets : DomSets) (hp : g.preds b ≠ []) :
    a ∈ g.meetDoms sets b ↔ a = b ∨ ∀ q ∈ g.preds b, a ∈ sets.get q := by
  unfold meetDoms
  split
  · contradiction
  · rename_i p ps heq
    rw [mem_insert, mem_foldl_filter, heq]
    simp

/-- The intersection is in order if the first set is. -/
private theorem sorted_foldl_filter (sets : DomSets) (ps acc : List Node) (h : Sorted id acc) :
    Sorted id (ps.foldl (fun acc q => acc.filter ((sets.get q).contains ·)) acc) := by
  induction ps generalizing acc with
  | nil => exact h
  | cons p ps ih => exact ih _ (List.Pairwise.filter _ h)

/-! ## The invariant of the rounds -/

/-- What holds of the sets in every round: they ascend, the entry has only itself, every dominator
is there, and the equations can only remove members. -/
structure DomInv (g : Graph) (sets : DomSets) : Prop where
  keys : sets.map Prod.fst = g.nodes
  sorted : ∀ b, Sorted id (sets.get b)
  entry : sets.get g.entry = [g.entry]
  complete : ∀ a b, a ∈ g.nodes → b ∈ g.nodes → g.Dominates a b → a ∈ sets.get b
  descends : ∀ b ∈ g.nodes, b ≠ g.entry → ∀ a ∈ g.meetDoms sets b, a ∈ sets.get b

/-- The set that a refinement gives is in order. -/
theorem DomInv.sorted_meet (h : DomInv g sets) (b : Node) : Sorted id (g.meetDoms sets b) := by
  unfold meetDoms
  split
  · exact h.sorted b
  · exact Ascending.Sorted.insert (sorted_foldl_filter _ _ _ (h.sorted _)) b

/-- Every node has one set. -/
theorem DomInv.nodup_keys (hg : g.WellFormed) (h : DomInv g sets) :
    (sets.map Prod.fst).Nodup := h.keys ▸ hg.sorted.nodup

/-- The meet of a smaller table is smaller. -/
private theorem meet_mono {sets' : DomSets} (h : ∀ q, ∀ x ∈ sets'.get q, x ∈ sets.get q)
    (ha : a ∈ g.meetDoms sets' b) : a ∈ g.meetDoms sets b := by
  by_cases hp : g.preds b = []
  · unfold meetDoms at ha ⊢
    rw [hp] at ha ⊢
    exact h b a ha
  · rw [mem_meetDoms _ hp] at ha ⊢
    exact ha.imp_right fun ha q hq => h q a (ha q hq)

/-- Replacing the set of a node by its meet keeps the invariant. -/
theorem DomInv.update (hg : g.WellFormed) (h : DomInv g sets) (hb : b ∈ g.nodes)
    (hne : b ≠ g.entry) : DomInv g (sets.set b (g.meetDoms sets b)) := by
  have hmem : b ∈ sets.map Prod.fst := h.keys ▸ hb
  have hget : ∀ c, (sets.set b (g.meetDoms sets b)).get c =
      if c = b then g.meetDoms sets b else sets.get c := by
    intro c
    simp [DomSets.get_set, hmem]
  -- The meet over the predecessors only takes nodes out, since the set was no larger than it.
  have hsmall : ∀ q, ∀ x ∈ (sets.set b (g.meetDoms sets b)).get q, x ∈ sets.get q := by
    intro q x hx
    rw [hget] at hx
    split at hx
    · rename_i heq
      rw [heq]
      exact h.descends b hb hne x hx
    · exact hx
  refine ⟨by rw [DomSets.keys_set]; exact h.keys, fun c => ?_, ?_, fun a c ha hc hdom => ?_,
    fun c hc hce a ha => ?_⟩
  · rw [hget]
    split
    · exact h.sorted_meet b
    · exact h.sorted c
  · rw [hget, if_neg (Ne.symm hne)]
    exact h.entry
  · rw [hget]
    split
    · rename_i hcb
      subst hcb
      by_cases hp : g.preds c = []
      · unfold meetDoms
        rw [hp]
        exact h.complete a c ha hc hdom
      · rw [mem_meetDoms _ hp]
        by_cases hac : a = c
        · exact Or.inl hac
        · refine Or.inr fun q hq => ?_
          have edge := (hg.mem_preds q c).1 hq
          exact h.complete a q ha (hg.source_mem q c edge) (hdom.of_succ hac edge)
    · exact h.complete a c ha hc hdom
  · rw [hget]
    split
    · rename_i hcb
      subst hcb
      exact meet_mono hsmall ha
    · exact h.descends c hc hce a (meet_mono hsmall ha)

/-! ## Rounds -/

/-- One round over some of the nodes keeps the invariant and does not raise the weight. If it
keeps the weight, it changes nothing and every node has the meet of its predecessors. -/
private theorem refine_nodes (hg : g.WellFormed) (l : List Node) (hl : ∀ b ∈ l, b ∈ g.nodes)
    (h : DomInv g sets) :
    let next := l.foldl
      (fun sets b => if b = g.entry then sets else sets.set b (g.meetDoms sets b)) sets
    DomInv g next ∧ next.weight ≤ sets.weight ∧
      (sets.weight ≤ next.weight →
        next = sets ∧ ∀ b ∈ l, b ≠ g.entry → sets.get b = g.meetDoms sets b) := by
  -- Induction on the nodes of one round. The weight falls where a set changes, so a round of
  -- unchanged weight changes none.
  induction l generalizing sets with
  | nil => exact ⟨h, Nat.le_refl _, fun _ => ⟨rfl, by simp⟩⟩
  | cons b l ih =>
    have hl' : ∀ c ∈ l, c ∈ g.nodes := fun c hc => hl c (List.mem_cons_of_mem _ hc)
    simp only [List.foldl_cons]
    by_cases hbe : b = g.entry
    · simp only [if_pos hbe]
      obtain ⟨hinv, hle, hsame⟩ := ih hl' h
      refine ⟨hinv, hle, fun hge => ?_⟩
      obtain ⟨heq, hmeet⟩ := hsame hge
      refine ⟨heq, fun c hc hce => ?_⟩
      rcases List.mem_cons.1 hc with rfl | hc
      · exact absurd hbe hce
      · exact hmeet c hc hce
    · simp only [if_neg hbe]
      have hb : b ∈ g.nodes := hl b List.mem_cons_self
      obtain ⟨hinv, hle, hsame⟩ := ih hl' (h.update hg hb hbe)
      have hsub : (g.meetDoms sets b).Sublist (sets.get b) :=
        (h.sorted_meet b).sublist_of_subset (h.sorted b) (h.descends b hb hbe)
      obtain ⟨hle', hsame'⟩ := DomSets.weight_set (h.nodup_keys hg) hsub
      refine ⟨hinv, Nat.le_trans hle hle', fun hge => ?_⟩
      have hset : sets.set b (g.meetDoms sets b) = sets := hsame' (by omega)
      rw [hset] at hsame hge ⊢
      obtain ⟨heq, hmeet⟩ := hsame hge
      refine ⟨heq, fun c hc hce => ?_⟩
      rcases List.mem_cons.1 hc with rfl | hc
      · have hget := DomSets.get_set sets c c (g.meetDoms sets c)
        rw [hset, if_pos ⟨rfl, h.keys ▸ hb⟩] at hget
        exact hget
      · exact hmeet c hc hce

/-- With more rounds than there are members, the rounds end because one changes nothing. -/
private theorem settleDoms_settles (hg : g.WellFormed) (fuel : Nat) (h : DomInv g sets)
    (hfuel : sets.weight < fuel) :
    DomInv g (g.settleDoms fuel sets) ∧
      g.refineDoms (g.settleDoms fuel sets) = g.settleDoms fuel sets := by
  induction fuel generalizing sets with
  | zero => omega
  | succ fuel ih =>
    unfold settleDoms
    obtain ⟨hinv, hle, hsame⟩ := refine_nodes hg g.nodes (fun _ hb => hb) h
    simp only
    split
    · rename_i heq
      exact ⟨h, heq⟩
    · rename_i hne
      have hlt : (g.refineDoms sets).weight < sets.weight := by
        refine Nat.lt_of_le_of_ne hle fun heq => hne ?_
        exact (hsame (Nat.le_of_eq heq.symm)).1
      exact ih hinv (by omega)

/-! ## The first round -/

/-- The refinement starts from all nodes, but for the entry. -/
private theorem get_initialDoms (hb : b ∈ g.nodes) :
    g.initialDoms.get b = if b = g.entry then [g.entry] else g.nodes := by
  unfold initialDoms DomSets.get
  generalize g.nodes = all at *
  suffices h : ∀ l : List Node, b ∈ l →
      ((l.map fun b => (b, if b = g.entry then [g.entry] else all)).lookup b).getD [] =
        if b = g.entry then [g.entry] else all from h all hb
  intro l hbl
  induction l with
  | nil => exact absurd hbl List.not_mem_nil
  | cons c l ih =>
    by_cases hbc : b = c
    · subst hbc
      simp
    · have hbeq : (b == c) = false := by simpa using hbc
      simp only [List.map_cons, List.lookup_cons, hbeq]
      exact ih ((List.mem_cons.1 hbl).resolve_left hbc)

/-- There is no set for what is no node. -/
private theorem get_initialDoms_of_not_mem (hb : b ∉ g.nodes) : g.initialDoms.get b = [] := by
  unfold initialDoms DomSets.get
  rw [List.lookup_eq_none_iff.2]
  · rfl
  · intro p hp
    obtain ⟨c, hc, rfl⟩ := List.mem_map.1 hp
    simpa using fun h : b = c => hb (h ▸ hc)

/-- All sets together start with no more than a square of nodes. -/
private theorem weight_initial (all : List Node) (l : List Node) (hall : l ≠ [] → 0 < all.length) :
    DomSets.weight (l.map fun b => (b, if b = g.entry then [g.entry] else all)) ≤
      l.length * all.length := by
  induction l with
  | nil => simp [DomSets.weight]
  | cons b l ih =>
    have hpos := hall (by simp)
    have hle : (if b = g.entry then [g.entry] else all).length ≤ all.length := by
      split <;> simp <;> omega
    have hrest := ih fun _ => hpos
    simp only [List.map_cons, DomSets.weight, List.length_cons, Nat.add_mul, Nat.one_mul]
    omega

/-- The first sets satisfy the invariant. -/
private theorem domInv_initial (hg : g.WellFormed) : DomInv g g.initialDoms := by
  -- All nodes is the largest set, which every node but the entry starts with.
  have hsub : ∀ b, ∀ a ∈ g.initialDoms.get b, a ∈ g.nodes := by
    intro b a ha
    by_cases hb : b ∈ g.nodes
    · rw [get_initialDoms hb] at ha
      split at ha
      · rw [List.mem_singleton.1 ha]
        exact hg.entry_mem
      · exact ha
    · rw [get_initialDoms_of_not_mem hb] at ha
      exact absurd ha List.not_mem_nil
  refine ⟨?_, fun b => ?_, ?_, fun a b ha hb hdom => ?_, fun b hb hne a ha => ?_⟩
  · simp [initialDoms, Function.comp_def]
  · by_cases hb : b ∈ g.nodes
    · rw [get_initialDoms hb]
      split
      · simp [Sorted]
      · exact hg.sorted
    · rw [get_initialDoms_of_not_mem hb]
      exact List.Pairwise.nil
  · rw [get_initialDoms hg.entry_mem, if_pos rfl]
  · rw [get_initialDoms hb]
    split
    · rename_i heq
      rw [heq] at hdom
      simp [hdom.eq_entry]
    · exact ha
  · rw [get_initialDoms hb, if_neg hne]
    by_cases hp : g.preds b = []
    · unfold meetDoms at ha
      rw [hp] at ha
      exact hsub b a ha
    · rcases (mem_meetDoms _ hp).1 ha with rfl | hall
      · exact hb
      · obtain ⟨q, hq⟩ := List.exists_mem_of_ne_nil _ hp
        exact hsub q a (hall q hq)

/-! ## Dominators -/

/-- The sets that come out satisfy the invariant and do not change any more. -/
private theorem domSets_settles (hg : g.WellFormed) :
    DomInv g g.domSets ∧ g.refineDoms g.domSets = g.domSets := by
  refine settleDoms_settles hg _ (domInv_initial hg) ?_
  have := weight_initial (g := g) g.nodes g.nodes fun hne => List.length_pos_iff.2 hne
  exact Nat.lt_succ_of_le this

/-- The rounds that are given are enough: another one changes nothing. -/
theorem refineDoms_domSets (hg : g.WellFormed) : g.refineDoms g.domSets = g.domSets :=
  (domSets_settles hg).2

/-- The dominator sets solve their equations. -/
private theorem domSets_solves (hg : g.WellFormed) :
    DomInv g g.domSets ∧
      ∀ b ∈ g.nodes, b ≠ g.entry → g.domSets.get b = g.meetDoms g.domSets b := by
  obtain ⟨hinv, hfix⟩ := domSets_settles hg
  obtain ⟨-, -, hsame⟩ := refine_nodes hg g.nodes (fun _ hb => hb) hinv
  refine ⟨hinv, (hsame ?_).2⟩
  exact Nat.le_of_eq (congrArg DomSets.weight hfix).symm

/-- The computed set of a reachable node holds exactly its dominators. -/
theorem mem_domSets_iff (hg : g.WellFormed) (hb : g.Reachable b) :
    a ∈ g.domSets.get b ↔ g.Dominates a b := by
  obtain ⟨hinv, hsolves⟩ := domSets_solves hg
  constructor
  · -- On any path, membership is handed back from a node to its predecessor on the path.
    intro ha l hl
    induction hl with
    | refl =>
      rw [hinv.entry] at ha
      exact ha
    | @step b c l hl edge ih =>
      by_cases hce : c = g.entry
      · rw [hce, hinv.entry] at ha
        rw [List.mem_singleton.1 ha, hce]
        exact List.mem_cons_self
      · rw [hsolves c (hg.target_mem b c edge) hce] at ha
        have hbp : b ∈ g.preds c := (hg.mem_preds b c).2 edge
        rcases (mem_meetDoms _ (List.ne_nil_of_mem hbp)).1 ha with rfl | hall
        · exact List.mem_cons_self
        · exact List.mem_cons_of_mem _ (ih ⟨l, hl⟩ (hall b hbp))
  · intro hdom
    exact hinv.complete a b ((hdom.reachable hb).mem_nodes hg) (hb.mem_nodes hg) hdom

/-- A strict dominator has fewer dominators. -/
theorem length_domSets_lt (hg : g.WellFormed) (hb : g.Reachable b)
    (h : g.StrictlyDominates a b) :
    (g.domSets.get a).length < (g.domSets.get b).length := by
  obtain ⟨hinv, _⟩ := domSets_solves hg
  have ha : g.Reachable a := h.1.reachable hb
  have hsub : (g.domSets.get a).Sublist (g.domSets.get b) :=
    (hinv.sorted a).sublist_of_subset (hinv.sorted b) fun c hc =>
      (mem_domSets_iff hg hb).2 (((mem_domSets_iff hg ha).1 hc).trans h.1)
  refine Nat.lt_of_le_of_ne hsub.length_le fun heq => h.2 ?_
  have hba : b ∈ g.domSets.get a := by
    rw [hsub.eq_of_length heq]
    exact (mem_domSets_iff hg hb).2 (Dominates.refl g b)
  exact h.1.antisymm ((mem_domSets_iff hg ha).1 hba) hb

/-- No node has more dominators than there are nodes. -/
theorem length_domSets_le (hg : g.WellFormed) (hb : g.Reachable b) :
    (g.domSets.get b).length ≤ g.nodes.length := by
  obtain ⟨hinv, _⟩ := domSets_solves hg
  refine List.Sublist.length_le ((hinv.sorted b).sublist_of_subset hg.sorted fun a ha => ?_)
  exact (((mem_domSets_iff hg hb).1 ha).reachable hb).mem_nodes hg

/-! ## Immediate dominators -/

/-- The fold of `deepest` finds an element with the most dominators. -/
private theorem foldl_deepest (sets : DomSets) (l : List Node) (best : Option Node) :
    let pick := l.foldl (fun best d =>
      match best with
      | some c => if (sets.get c).length ≤ (sets.get d).length then some d else best
      | none => some d) best
    (pick = none ↔ best = none ∧ l = []) ∧
      ∀ d, pick = some d → (d ∈ l ∨ best = some d) ∧
        (∀ c, c ∈ l ∨ best = some c → (sets.get c).length ≤ (sets.get d).length) := by
  -- Induction on the candidates: the best one so far is kept unless the next has no smaller set.
  induction l generalizing best with
  | nil =>
    simp only [List.foldl_nil, List.not_mem_nil, false_or, and_true]
    refine ⟨trivial, fun d hd => ⟨hd, fun c hc => ?_⟩⟩
    exact Nat.le_of_eq (congrArg (fun d => (sets.get d).length) (Option.some.inj (hc.symm.trans hd)))
  | cons e l ih =>
    simp only [List.foldl_cons]
    cases best with
    | none =>
      obtain ⟨hnone, hsome⟩ := ih (some e)
      refine ⟨by simpa using hnone, fun d hd => ?_⟩
      obtain ⟨hmem, hmax⟩ := hsome d hd
      refine ⟨?_, fun c hc => hmax c ?_⟩
      · rcases hmem with h | h
        · exact Or.inl (List.mem_cons_of_mem _ h)
        · exact Or.inl (by simp [Option.some.inj h])
      · rcases hc with hc | hc
        · rcases List.mem_cons.1 hc with rfl | hc
          · exact Or.inr rfl
          · exact Or.inl hc
        · cases hc
    | some f =>
      simp only
      by_cases hle : (sets.get f).length ≤ (sets.get e).length
      · rw [if_pos hle]
        obtain ⟨hnone, hsome⟩ := ih (some e)
        refine ⟨by simpa using hnone, fun d hd => ?_⟩
        obtain ⟨hmem, hmax⟩ := hsome d hd
        refine ⟨?_, fun c hc => ?_⟩
        · rcases hmem with h | h
          · exact Or.inl (List.mem_cons_of_mem _ h)
          · exact Or.inl (by simp [Option.some.inj h])
        · rcases hc with hc | hc
          · rcases List.mem_cons.1 hc with rfl | hc
            · exact hmax _ (Or.inr rfl)
            · exact hmax _ (Or.inl hc)
          · rw [← Option.some.inj hc]
            exact Nat.le_trans hle (hmax e (Or.inr rfl))
      · rw [if_neg hle]
        obtain ⟨hnone, hsome⟩ := ih (some f)
        refine ⟨by simpa using hnone, fun d hd => ?_⟩
        obtain ⟨hmem, hmax⟩ := hsome d hd
        refine ⟨hmem.imp_left (List.mem_cons_of_mem _), fun c hc => ?_⟩
        rcases hc with hc | hc
        · rcases List.mem_cons.1 hc with rfl | hc
          · exact Nat.le_trans (by omega) (hmax f (Or.inr rfl))
          · exact hmax _ (Or.inl hc)
        · exact hmax _ (Or.inr hc)

/-- The tree has the parent that was computed for a node. -/
private theorem lookup_tree (l : List Node) (f : Node → Option Node) (hb : b ∈ l) :
    ((l.map fun b => (b, f b)).lookup b).join = f b := by
  induction l with
  | nil => exact absurd hb List.not_mem_nil
  | cons c l ih =>
    by_cases hbc : b = c
    · subst hbc
      simp
    · have hbeq : (b == c) = false := by simpa using hbc
      simp only [List.map_cons, List.lookup_cons, hbeq]
      exact ih ((List.mem_cons.1 hb).resolve_left hbc)

/-- The immediate dominator is the deepest one of the set. -/
theorem idom_eq_deepest (hb : b ∈ g.nodes) :
    g.dominatorTree.idom b = deepest g.domSets b :=
  lookup_tree g.nodes _ hb

/-- What is no node has no immediate dominator. -/
theorem idom_eq_none (hb : b ∉ g.nodes) : g.dominatorTree.idom b = none := by
  unfold DominatorTree.idom dominatorTree
  rw [List.lookup_eq_none_iff.2]
  · rfl
  · intro p hp
    obtain ⟨c, hc, rfl⟩ := List.mem_map.1 hp
    simpa using fun h : b = c => hb (h ▸ hc)

/-- The entry has no immediate dominator. -/
theorem idom_entry (hg : g.WellFormed) : g.dominatorTree.idom g.entry = none := by
  obtain ⟨hinv, _⟩ := domSets_solves hg
  rw [idom_eq_deepest hg.entry_mem, deepest, hinv.entry]
  simp

/-- Every reachable node but the entry has an immediate dominator: a strict dominator that all its
strict dominators dominate. -/
theorem exists_idom (hg : g.WellFormed) (hb : g.Reachable b) (hne : b ≠ g.entry) :
    ∃ d, g.dominatorTree.idom b = some d ∧ g.StrictlyDominates d b ∧
      ∀ a, g.StrictlyDominates a b → g.Dominates a d := by
  have hstrict : ∀ a, a ∈ (g.domSets.get b).filter (· != b) ↔ g.StrictlyDominates a b := by
    intro a
    rw [List.mem_filter, mem_domSets_iff hg hb]
    simp [StrictlyDominates]
  obtain ⟨hnone, hsome⟩ := foldl_deepest g.domSets ((g.domSets.get b).filter (· != b)) none
  rw [idom_eq_deepest (hb.mem_nodes hg)]
  cases hd : deepest g.domSets b with
  | none =>
    -- The entry is a strict dominator, so there is a deepest one.
    have hnil := (hnone.1 hd).2
    have hentry := (hstrict g.entry).2 ⟨dominates_entry g b, Ne.symm hne⟩
    rw [hnil] at hentry
    exact absurd hentry List.not_mem_nil
  | some d =>
    obtain ⟨hmem, hmax⟩ := hsome d hd
    have hdb : g.StrictlyDominates d b := (hstrict d).1 (hmem.resolve_right (by simp))
    refine ⟨d, rfl, hdb, fun a ha => ?_⟩
    -- Of two dominators one dominates the other, and the deepest is the lower one.
    rcases ha.1.total hdb.1 hb with h | h
    · exact h
    · by_cases hda : d = a
      · exact hda ▸ Dominates.refl g d
      · have hlt := length_domSets_lt hg (ha.1.reachable hb) ⟨h, hda⟩
        have hle := hmax a (Or.inl ((hstrict a).2 ha))
        omega

/-- What the tree gives as immediate dominator of a reachable node is one. -/
theorem idom_spec (hg : g.WellFormed) (hb : g.Reachable b)
    (h : g.dominatorTree.idom b = some d) :
    g.StrictlyDominates d b ∧ ∀ a, g.StrictlyDominates a b → g.Dominates a d := by
  by_cases hne : b = g.entry
  · rw [hne, idom_entry hg] at h
    cases h
  · obtain ⟨e, he, hspec⟩ := exists_idom hg hb hne
    rw [h] at he
    rw [Option.some.inj he]
    exact hspec

/-- A strict dominator is right above a dominator. -/
theorem exists_child (hg : g.WellFormed) (hb : g.Reachable b) (h : g.StrictlyDominates a b) :
    ∃ c, g.dominatorTree.idom c = some a ∧ g.Dominates c b := by
  obtain ⟨k, hk⟩ : ∃ k, (g.domSets.get b).length = k := ⟨_, rfl⟩
  induction k using Nat.strongRecOn generalizing b with
  | _ k ih =>
    have hne : b ≠ g.entry := by
      rintro rfl
      exact h.2 h.1.eq_entry
    obtain ⟨d, hd, hdb, hdeepest⟩ := exists_idom hg hb hne
    by_cases had : a = d
    · subst had
      exact ⟨b, hd, .refl g b⟩
    · have hlt := length_domSets_lt hg hb hdb
      obtain ⟨c, hc, hcd⟩ := ih _ (hk ▸ hlt) (hdb.1.reachable hb) ⟨hdeepest a h, had⟩ rfl
      exact ⟨c, hc, hcd.trans hdb.1⟩

/-- No two nodes right below a node dominate the same node. -/
theorem eq_of_idom_eq (hg : g.WellFormed) (hx : g.Reachable x)
    (ha : g.dominatorTree.idom a = some d) (hb : g.dominatorTree.idom b = some d)
    (hax : g.Dominates a x) (hbx : g.Dominates b x) : a = b := by
  have hne : ∀ a b, g.dominatorTree.idom a = some d → g.dominatorTree.idom b = some d →
      g.Reachable a → g.Reachable b → g.Dominates a b → a = b := by
    intro a b ha hb har hbr hab
    refine Classical.byContradiction fun hne => ?_
    obtain ⟨hda, -⟩ := idom_spec hg har ha
    have had : g.Dominates a d := (idom_spec hg hbr hb).2 a ⟨hab, hne⟩
    exact hda.2 (hda.1.antisymm had har)
  have har := hax.reachable hx
  have hbr := hbx.reachable hx
  rcases hax.total hbx hx with hab | hba
  · exact hne a b ha hb har hbr hab
  · exact (hne b a hb ha hbr har hba).symm

end Graph

/-! ## Children -/

/-- The children of a node are those it is the immediate dominator of. -/
theorem DominatorTree.mem_children :
    b ∈ g.dominatorTree.children d ↔ b ∈ g.nodes ∧ g.dominatorTree.idom b = some d := by
  unfold DominatorTree.children
  simp only [Graph.dominatorTree, List.mem_map, List.mem_filter]
  constructor
  · rintro ⟨p, ⟨⟨c, hc, rfl⟩, hp⟩, rfl⟩
    refine ⟨hc, ?_⟩
    have := Graph.idom_eq_deepest hc
    unfold Graph.dominatorTree at this
    rw [this]
    simpa using hp
  · rintro ⟨hb, hidom⟩
    refine ⟨(b, Graph.deepest g.domSets b), ⟨⟨b, hb, rfl⟩, ?_⟩, rfl⟩
    have := Graph.idom_eq_deepest hb
    unfold Graph.dominatorTree at this
    rw [this] at hidom
    simpa using hidom

/-- The children of a node are listed once each. -/
theorem DominatorTree.nodup_children (hg : g.WellFormed) (d : Node) :
    (g.dominatorTree.children d).Nodup := by
  have hkeys : (g.dominatorTree.idoms.map Prod.fst) = g.nodes := by
    simp [Graph.dominatorTree, Function.comp_def]
  have hnodup : (g.dominatorTree.idoms.map Prod.fst).Nodup := hkeys ▸ hg.sorted.nodup
  exact hnodup.sublist ((List.filter_sublist).map _)

end HotRegion.Flow
