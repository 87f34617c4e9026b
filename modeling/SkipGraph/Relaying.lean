import SkipGraph.SortedList

/-!
# A search while tables change

A relayed search has neither a hop limit nor a record of the nodes it has visited. Here
the tables of all nodes may be anything at each hop, as long as every entry is a node on
its slot's side of its owner: the search still moves strictly in its direction, its level
never rises, and so it is answered.
-/

namespace SkipGraph

open StrictOrder

namespace Sys

/-- The nodes `I` in a state in which every entry is a node on its slot's side. -/
structure Oriented (I : Finset Identifier) (s : Sys) : Prop where
  members : s.members = I
  sided : s.Sided
  entries : ∀ x ∈ I, ∀ l d e, s.entry x l d = some e → e.id ∈ I

/-- From hop `k` on the request is handled by the nodes of `hops` at the levels given there,
node after node in the states `w k`, `w (k+1)`, …, without an error, and then answered. -/
inductive Relayed (w : ℕ → Sys) :
    ℕ → Identifier → IdSearchReq → List (Identifier × ℕ) → IdSearchRes → Prop
  | answer {k x req res} : ((w k).handle ⟨x,.searchByIdRequest req⟩).result = .ok () →
      ((w k).handle ⟨x,.searchByIdRequest req⟩).sent = [⟨req.origin,.searchByIdResponse res⟩] →
      Relayed w k x req [(x,req.level)] res
  | relay {k x y req level hops res} :
      ((w k).handle ⟨x,.searchByIdRequest req⟩).result = .ok () →
      ((w k).handle ⟨x,.searchByIdRequest req⟩).sent =
        [⟨y,.searchByIdRequest { req with level := level }⟩] →
      Relayed w (k+1) y { req with level := level } hops res →
      Relayed w k x req ((x,req.level)::hops) res

variable {s : Sys} {w : ℕ → Sys} {I : Finset Identifier} {x y r : Identifier} {req : IdSearchReq}
  {k : ℕ} {hops : List (Identifier × ℕ)} {res : IdSearchRes}

/-- One hop: the node answers with itself, when all it knows is past the target, or relays
to a node past itself and not past the target, at no higher level. -/
theorem Oriented.hop (hs : s.Oriented I) (hx : x ∈ I) (hl : req.level < lookupTableLevels) :
    (s.handle ⟨x,.searchByIdRequest req⟩).result = .ok () ∧
    ((s.handle ⟨x,.searchByIdRequest req⟩).sent =
        [⟨req.origin,.searchByIdResponse ⟨req.nonce,req.target,0,x⟩⟩] ∨
      ∃ y level, (s.handle ⟨x,.searchByIdRequest req⟩).sent =
          [⟨y,.searchByIdRequest { req with level := level }⟩] ∧
        y ∈ I ∧ req.direction.lt x y ∧ req.direction.le y req.target ∧ level ≤ req.level) := by
  have hx' : x ∈ s.members := hs.members ▸ hx
  rcases hs.sided.handle_cases (p := ⟨x,.searchByIdRequest req⟩) hx' with ⟨-,ha⟩ | ⟨q,hq,hres,hr⟩
  · exact absurd hl (Nat.not_lt.mpr ha)
  · refine ⟨hres,?_⟩
    cases hr with
    | answer req _ hpast =>
      left
      rw [hq,show (s.node x).id = x from s.node_id x]
    | relay req l e _ hle he ht _ =>
      right
      exact ⟨e.id,l,hq,hs.entries x hx l _ e he,hs.sided x hx' l _ e he,ht,hle⟩

/-- The request is answered: every hop leaves fewer nodes past the current one. -/
theorem exists_relayed (hw : ∀ k, (w k).Oriented I) (k : ℕ) (hx : x ∈ I)
    (hl : req.level < lookupTableLevels) : ∃ hops res, Relayed w k x req hops res := by
  induction hc : (past req.direction.lt I x).card using Nat.strong_induction_on
    generalizing k x req with
  | _ c ih =>
  obtain ⟨hres,hsent | ⟨y,level,hsent,hy,hxy,-,hle⟩⟩ := (hw k).hop hx hl
  · exact ⟨_,_,.answer hres hsent⟩
  · have hlt := card_past_lt hy hxy
    have hl' : ({ req with level := level } : IdSearchReq).level < lookupTableLevels :=
      lt_of_le_of_lt hle hl
    obtain ⟨hops,res,h⟩ := ih _ (hc ▸ hlt) (k+1) hy hl' rfl
    exact ⟨_,_,.relay hres hsent h⟩

/-- Along a relayed search: the nodes move strictly in its direction, the level never rises,
each hop uses up a node, the fields are kept, and nothing overshoots the target. -/
structure Progress (I : Finset Identifier) (x : Identifier) (req : IdSearchReq)
    (hops : List (Identifier × ℕ)) (res : IdSearchRes) : Prop where
  nodes : (hops.map Prod.fst).Pairwise req.direction.lt
  levels : (hops.map Prod.snd).Pairwise (· ≥ ·)
  first : ∀ h ∈ hops, req.direction.le x h.1 ∧ h.2 ≤ req.level
  length : hops.length ≤ (past req.direction.lt I x).card + 1
  nonce : res.nonce = req.nonce
  target : res.target = req.target
  result : ∃ h ∈ hops, res.result = h.1
  reach : req.direction.le x req.target → ∀ h ∈ hops, req.direction.le h.1 req.target
  beyond : req.direction.lt req.target x → hops = [(x,req.level)]

theorem Progress.answer (I : Finset Identifier) (x : Identifier) (req : IdSearchReq) (level : ℕ) :
    Progress I x req [(x,req.level)] ⟨req.nonce,req.target,level,x⟩ where
  nodes := by simp
  levels := by simp
  first := by simp
  length := by simp
  nonce := rfl
  target := rfl
  result := ⟨(x,req.level),by simp,rfl⟩
  reach := by simp
  beyond := fun _ => rfl

theorem Progress.relay {level : ℕ} (h : Progress I y { req with level := level } hops res)
    (hy : y ∈ I) (hxy : req.direction.lt x y) (hyt : req.direction.le y req.target)
    (hle : level ≤ req.level) : Progress I x req ((x,req.level)::hops) res where
  nodes := by
    rw [List.map_cons,List.pairwise_cons]
    refine ⟨fun z hz => ?_,h.nodes⟩
    obtain ⟨p,hp,rfl⟩ := List.mem_map.mp hz
    exact Direction.lt_of_lt_of_le hxy (h.first p hp).1
  levels := by
    rw [List.map_cons,List.pairwise_cons]
    refine ⟨fun z hz => ?_,h.levels⟩
    obtain ⟨p,hp,rfl⟩ := List.mem_map.mp hz
    exact le_trans (h.first p hp).2 hle
  first p hp := by
    rcases List.mem_cons.mp hp with rfl | hp
    · exact ⟨Direction.le_refl,le_refl _⟩
    · obtain ⟨hyp,hlp⟩ := h.first p hp
      exact ⟨Direction.le_of_lt (Direction.lt_of_lt_of_le hxy hyp),le_trans hlp hle⟩
  length := by
    have hlen : hops.length ≤ (past req.direction.lt I y).card + 1 := h.length
    have hlt := card_past_lt hy hxy
    simp only [List.length_cons]
    omega
  nonce := h.nonce
  target := h.target
  result := by
    obtain ⟨p,hp,hr⟩ := h.result
    exact ⟨p,List.mem_cons_of_mem _ hp,hr⟩
  reach hx p hp := by
    rcases List.mem_cons.mp hp with rfl | hp
    · exact hx
    · exact h.reach hyt p hp
  beyond hx := absurd (Direction.lt_of_lt_of_le hxy hyt) (Direction.not_lt.mpr (Direction.le_of_lt hx))

theorem Relayed.progress (h : Relayed w k x req hops res) (hw : ∀ k, (w k).Oriented I)
    (hx : x ∈ I) (hl : req.level < lookupTableLevels) : Progress I x req hops res := by
  induction h with
  | @answer k x req res _ hsent =>
    obtain ⟨-,hs | ⟨y,level,hs,-⟩⟩ := (hw k).hop hx hl
    · obtain rfl : res = ⟨req.nonce,req.target,0,x⟩ := by simpa using hsent.symm.trans hs
      exact .answer I x req 0
    · simp [hs] at hsent
  | @relay k x y req level hops res _ hsent _ ih =>
    obtain ⟨-,hs | ⟨y',level',hs,hy,hxy,hyt,hle⟩⟩ := (hw k).hop hx hl
    · simp [hs] at hsent
    · obtain ⟨rfl,rfl⟩ : y' = y ∧ level' = level := by simpa using hs.symm.trans hsent
      exact (ih hy (lt_of_le_of_lt hle hl)).relay hy hxy hyt hle

/-- Whatever the tables do between the hops of a search, it is relayed through strictly
ordered nodes at levels that never rise, without an error and through no node twice, and
answered after at most as many hops as there are nodes. No hop and no answer overshoots a
target that the first node is not past; a first node past the target answers at once with
itself. -/
theorem search_relays_monotone (hw : ∀ k, (w k).Oriented I) (hx : x ∈ I)
    (hl : req.level < lookupTableLevels) :
    (∃ hops res, Relayed w 0 x req hops res) ∧
    ∀ hops res, Relayed w 0 x req hops res →
      (hops.map Prod.fst).Pairwise req.direction.lt ∧ (hops.map Prod.fst).Nodup ∧
      (hops.map Prod.snd).Pairwise (· ≥ ·) ∧ hops.length ≤ I.card ∧
      (req.direction.le x req.target → (∀ h ∈ hops, req.direction.le h.1 req.target) ∧
        req.direction.le res.result req.target) ∧
      (req.direction.lt req.target x → hops = [(x,req.level)] ∧ res.result = x) := by
  refine ⟨exists_relayed hw 0 hx hl,fun hops res h => ?_⟩
  have hp := h.progress hw hx hl
  obtain ⟨p,hmem,hr⟩ := hp.result
  refine ⟨hp.nodes,hp.nodes.imp Direction.ne_of_lt,hp.levels,?_,fun ht => ?_,fun ht => ?_⟩
  · have hlen := hp.length
    have hcard := card_past_lt_card (r := req.direction.lt) hx
    omega
  · exact ⟨hp.reach ht,hr ▸ hp.reach ht p hmem⟩
  · have hone := hp.beyond ht
    refine ⟨hone,?_⟩
    obtain rfl : p = (x,req.level) := by simpa [hone] using hmem
    exact hr

theorem oriented_row (linked fresh : List Identifier) :
    (row linked fresh).Oriented (linked++fresh).toFinset :=
  ⟨rfl,(honest_row _ _).sided,fun x hx l d e he => ((honest_row _ _).entries x hx l d e he).1⟩

theorem search_relays_through_three :
    let req : IdSearchReq := ⟨⟨0⟩,.ofByte 4,.ofByte 9,3,.right⟩
    let w : ℕ → Sys := fun k =>
      if k = 0 then row [.ofByte 1,.ofByte 3,.ofByte 5] [] else row [.ofByte 3,.ofByte 5] [.ofByte 1]
    ∃ hops res, Relayed w 0 (.ofByte 1) req hops res ∧ hops.length ≤ 3 ∧
      req.direction.le res.result req.target := by
  intro req w
  let I : Finset Identifier := {.ofByte 1,.ofByte 3,.ofByte 5}
  have hw : ∀ k, (w k).Oriented I := by
    intro k
    by_cases hk : k = 0
    · simpa [w,hk,I] using oriented_row [.ofByte 1,.ofByte 3,.ofByte 5] []
    · have hI : I = {.ofByte 3,.ofByte 5,.ofByte 1} := by decide +kernel
      simpa [w,hk,hI] using oriented_row [.ofByte 3,.ofByte 5] [.ofByte 1]
  have hx : (.ofByte 1 : Identifier) ∈ I := by decide +kernel
  have hl : req.level < lookupTableLevels := by decide
  obtain ⟨⟨hops,res,h⟩,hall⟩ := search_relays_monotone hw hx hl
  obtain ⟨-,-,-,hlen,hreach,-⟩ := hall hops res h
  exact ⟨hops,res,h,hlen.trans (by decide +kernel),(hreach (by decide +kernel)).2⟩

end Sys

end SkipGraph
