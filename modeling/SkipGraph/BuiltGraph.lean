import SkipGraph.LocalSkipGraph

/-!
# Working with a graph built by hand

The nodes of a `LocalSkipGraph` share the hub that has registered them, and a node's table
is the one that the construction has filled. The graph is a sorted set of identifiers from
the start, and stays one under any further history of the hub.
-/

namespace SkipGraph

open Transition StrictOrder ClassNeighbors BaseNode NetworkHub

namespace LocalSkipGraph

variable {n : ℕ} {g : LocalSkipGraph n} {i j : Fin n} {level : ℕ} {d : Direction} {x : Identifier}

def position (g : LocalSkipGraph n) (x : Identifier) : Option (Fin n) :=
  (List.finRange n).find? fun i => decide (g.identifiers i = x)

def hub (g : LocalSkipGraph n) : NetworkHub :=
  ⟨fun x => (g.position x).map fun i => ⟨x,g.addresses i,some (g.node i)⟩⟩

def members (g : LocalSkipGraph n) : Finset Identifier := Finset.univ.image g.identifiers

theorem position_identifiers (hinj : Function.Injective g.identifiers) (i : Fin n) :
    g.position (g.identifiers i) = some i := by
  refine (find?_eq_some_iff (List.pairwise_lt_finRange n)).mpr ⟨List.mem_finRange i,by simp,?_⟩
  intro k _ hk
  exact decide_eq_false fun he => absurd (hinj he) (ne_of_lt hk)

theorem identifiers_position (h : g.position x = some i) : g.identifiers i = x := by
  simpa using List.find?_some h

theorem position_eq_none (hx : x ∉ g.members) : g.position x = none := by
  refine List.find?_eq_none.mpr fun i _ hi => hx ?_
  rw [decide_eq_true_iff] at hi
  exact Finset.mem_image.mpr ⟨i,Finset.mem_univ i,hi⟩

/-- The nodes as a system without events in flight. -/
def sys (g : LocalSkipGraph n) : Sys where
  members := g.members
  node x := match g.position x with
    | some i => g.node i
    | none => .new ⟨x,⟨Vector.replicate _ 0⟩,.new⟩ ⟨"",""⟩
  inflight := []
  node_id x := by
    cases hx : g.position x with
    | none => rfl
    | some i => exact identifiers_position hx

theorem sys_node (hinj : Function.Injective g.identifiers) (i : Fin n) :
    g.sys.node (g.identifiers i) = g.node i := by
  simp only [sys,position_identifiers hinj i]

theorem hub_runs (hinj : Function.Injective g.identifiers) : g.hub.Runs g.sys where
  registered x hx := by
    obtain ⟨i,-,rfl⟩ := Finset.mem_image.mp hx
    simp only [hub,position_identifiers hinj i,sys_node hinj]
    rfl
  other x hx := by
    simp [NetworkHub.node,hub,position_eq_none hx]

/-- While the tables are empty, this is the hub that the registration leaves behind. -/
theorem register_eq_hub (hinj : Function.Injective g.identifiers) (hlt : g.lts = fun _ => .new) :
    g.register = .ok g.hub := by
  have hfold : ∀ (is : List (Fin n)) (h : NetworkHub), is.Nodup →
      (∀ i ∈ is, h.networks (g.identifiers i) = none) →
      is.foldlM (fun (h : NetworkHub) i =>
        h.addNode ⟨g.identifiers i,g.mvs i,.new⟩ (g.addresses i)) h =
      .ok ⟨fun x => match is.find? fun i => decide (g.identifiers i = x) with
        | some i => some ⟨x,g.addresses i,some (g.node i)⟩
        | none => h.networks x⟩ := by
    intro is
    induction is with
    | nil => exact fun _ _ _ => rfl
    | cons i is ih =>
      intro h hnd hfree
      obtain ⟨hi,hnd⟩ := List.nodup_cons.mp hnd
      have hne : ∀ k ∈ is, g.identifiers k ≠ g.identifiers i := fun k hk he =>
        hi (hinj he ▸ hk)
      rw [List.foldlM_cons,addNode_ok _ _ (hfree i (by simp))]
      refine (ih _ hnd fun k hk => ?_).trans ?_
      · simpa [NetworkHub.insert,hne k hk] using hfree k (by simp [hk])
      · congr 2
        funext x
        by_cases hx : g.identifiers i = x
        · subst hx
          have hnone : is.find? (fun k => decide (g.identifiers k = g.identifiers i)) = none :=
            List.find?_eq_none.mpr fun k hk => by simpa using hne k hk
          rw [hnone,List.find?_cons_of_pos (by simp)]
          simp [NetworkHub.insert,LocalSkipGraph.node,hlt]
        · rw [List.find?_cons_of_neg (by simpa using hx)]
          cases is.find? fun k => decide (g.identifiers k = x) with
          | none => simp [NetworkHub.insert,Ne.symm hx]
          | some k => rfl
  rw [register,hfold _ _ (List.nodup_finRange n) fun _ _ => rfl]
  congr 2
  funext x
  rw [position]
  cases (List.finRange n).find? fun i => decide (g.identifiers i = x) with
  | none => rfl
  | some i => rfl

def neighbor (g : LocalSkipGraph n) (level : ℕ) : Direction → Fin n → Option (Fin n)
  | .left => before (Shares g.mvs level)
  | .right => after (Shares g.mvs level)

theorem Wired.entry (hw : g.Wired) (hl : level < lookupTableLevels) (i : Fin n) (d : Direction) :
    g.entry i level d = (g.neighbor level d i).map g.peer := by
  cases d with
  | left => exact hw.left i level hl
  | right => exact hw.right i level hl

theorem neighbor_eq_some (hmono : StrictMono g.identifiers) :
    g.neighbor level d i = some j ↔ d.lt (g.identifiers i) (g.identifiers j) ∧
      Shares g.mvs level i j ∧ ∀ k, d.lt (g.identifiers i) (g.identifiers k) →
        d.lt (g.identifiers k) (g.identifiers j) → ¬ Shares g.mvs level i k := by
  cases d with
  | left =>
    refine before_eq_some.trans (and_congr hmono.lt_iff_lt.symm (and_congr_right fun _ => ?_))
    exact forall_congr' fun k => ⟨fun h hki hjk => h (hmono.lt_iff_lt.mp hjk) (hmono.lt_iff_lt.mp hki),
      fun h hjk hki => h (hmono hki) (hmono hjk)⟩
  | right =>
    refine after_eq_some.trans (and_congr hmono.lt_iff_lt.symm (and_congr_right fun _ => ?_))
    exact forall_congr' fun k => ⟨fun h hik hkj => h (hmono.lt_iff_lt.mp hik) (hmono.lt_iff_lt.mp hkj),
      fun h hik hkj => h (hmono hik) (hmono hkj)⟩

theorem neighbor_eq_none (hmono : StrictMono g.identifiers) : g.neighbor level d i = none ↔
    ∀ k, d.lt (g.identifiers i) (g.identifiers k) → ¬ Shares g.mvs level i k := by
  cases d with
  | left => exact before_eq_none.trans (forall_congr' fun k => imp_congr_left hmono.lt_iff_lt.symm)
  | right => exact after_eq_none.trans (forall_congr' fun k => imp_congr_left hmono.lt_iff_lt.symm)

theorem mem_members : x ∈ g.members ↔ ∃ i, g.identifiers i = x := by simp [members]

theorem sys_entry (hinj : Function.Injective g.identifiers) :
    g.sys.entry (g.identifiers i) level d = g.entry i level d := by
  simp only [Sys.entry,sys_node hinj]
  rfl

theorem sys_entry_eq_some (hmono : StrictMono g.identifiers) (hw : g.Wired) {e : Identity}
    (he : g.sys.entry (g.identifiers i) level d = some e) :
    ∃ j, g.neighbor level d i = some j ∧ g.peer j = e := by
  rw [sys_entry hmono.injective] at he
  rw [hw.entry (ArrayLookupTable.lt_of_entry he)] at he
  exact Option.map_eq_some_iff.mp he

theorem sys_entry_eq_none (hmono : StrictMono g.identifiers) (hw : g.Wired)
    (hl : level < lookupTableLevels) (he : g.sys.entry (g.identifiers i) level d = none) :
    g.neighbor level d i = none := by
  rw [sys_entry hmono.injective,hw.entry hl] at he
  exact Option.map_eq_none_iff.mp he

theorem sys_calm (hmono : StrictMono g.identifiers) (hw : g.Wired) : g.sys.Calm g.members where
  subset := Finset.Subset.refl _
  listed := by
    refine ⟨fun x hx d e he => ?_,fun x hx d he => ?_⟩
    · obtain ⟨i,rfl⟩ := mem_members.mp hx
      obtain ⟨j,hj,rfl⟩ := sys_entry_eq_some hmono hw he
      obtain ⟨hlt,-,hfirst⟩ := (neighbor_eq_some hmono).mp hj
      refine ⟨mem_members.mpr ⟨j,rfl⟩,hlt,fun z hz hiz hzj => ?_⟩
      obtain ⟨k,rfl⟩ := mem_members.mp hz
      exact hfirst k hiz hzj (Nat.zero_le _)
    · obtain ⟨i,rfl⟩ := mem_members.mp hx
      have hnone := (neighbor_eq_none hmono).mp (sys_entry_eq_none hmono hw (by decide) he)
      intro z hz hiz
      obtain ⟨k,rfl⟩ := mem_members.mp hz
      exact hnone k hiz (Nat.zero_le _)
  sided x hx l d e he := by
    obtain ⟨i,rfl⟩ := mem_members.mp hx
    obtain ⟨j,hj,rfl⟩ := sys_entry_eq_some hmono hw he
    exact ((neighbor_eq_some hmono).mp hj).1
  entries x hx l d e he := by
    obtain ⟨i,rfl⟩ := mem_members.mp hx
    obtain ⟨j,-,rfl⟩ := sys_entry_eq_some hmono hw he
    exact mem_members.mpr ⟨j,rfl⟩
  fresh x hx hx' := absurd hx hx'
  idle x hx nonce := by
    obtain ⟨i,rfl⟩ := mem_members.mp hx
    rw [sys_node hmono.injective]
    rfl

/-- A built graph is a sorted set of its identifiers, all of them joined. -/
theorem hub_implements (hmono : StrictMono g.identifiers) (hw : g.Wired) :
    g.hub.Implements ⟨g.members,g.members⟩ g.sys where
  runs := hub_runs hmono.injective
  calm := sys_calm hmono hw
  known := rfl
  unknown x hx := by simp [hub,position_eq_none hx]

/-- Over the hub of a built graph every allowed history of calls is answered as by the sorted
set of its identifiers: a search from any node and any level returns the nearest node, later
nodes join through nodes that have joined, and a call that fails gives the error of the set. -/
theorem built_graph_implements_ordered_set {draws : Fin n → Identifier}
    {mvs : Fin n → MembershipVector} {addresses : Fin n → Address}
    (hg : new draws mvs addresses = .ok g) (ops : List SetOp) (fuel : ℕ)
    (hops : (IdentifierSet.mk g.members g.members).AllowsAll ops) (hf : n+ops.length ≤ fuel) :
    ∃ h' t, g.hub.run fuel ops =
        some (h',(execute IdentifierSet.exec ⟨g.members,g.members⟩ ops).1) ∧
      h'.Runs t ∧ t.Listed (execute IdentifierSet.exec ⟨g.members,g.members⟩ ops).2.joined := by
  obtain ⟨-,-,hmono,-,-,-,hw⟩ := new_ok hg
  have hcard : g.members.card ≤ n := Finset.card_image_le.trans (by simp)
  obtain ⟨h',t,hr,hi⟩ := (hub_implements hmono hw).run hops fuel
    (by simp only; omega)
  exact ⟨h',t,hr,hi.runs,hi.calm.listed⟩

/-- The graph of nodes 1 and 2, drawn in the other order, and a search for node 2. -/
theorem built_graph_of_two :
    let draws : Fin 2 → Identifier := ![.ofByte 2,.ofByte 1]
    ∃ g, new draws (fun _ => ⟨Vector.replicate _ 0⟩) (fun _ => ⟨"",""⟩) = .ok g ∧
      ∃ h', g.hub.run 3 [.search (.ofByte 1) ⟨⟨0⟩,.ofByte 2,.ofByte 1,255,.right⟩] =
        some (h',[.ok (.found (some (.ofByte 2)))]) := by
  intro draws
  obtain ⟨g,hg⟩ := exists_new (fun _ => ⟨Vector.replicate _ 0⟩) (fun _ => ⟨"",""⟩)
    (by decide) (show Function.Injective draws by decide)
  obtain ⟨-,-,-,hrange,-⟩ := new_ok hg
  have hm : g.members = {.ofByte 1,.ofByte 2} := by
    ext x
    rw [mem_members,← Set.mem_range,hrange]
    simp [draws]
  let ops : List SetOp := [.search (.ofByte 1) ⟨⟨0⟩,.ofByte 2,.ofByte 1,255,.right⟩]
  have hops : (IdentifierSet.mk g.members g.members).AllowsAll ops := by
    rw [hm]
    exact ⟨by decide +kernel,trivial⟩
  have hans : (execute IdentifierSet.exec ⟨g.members,g.members⟩ ops).1 =
      [.ok (.found (some (.ofByte 2)))] := by
    rw [hm]
    decide +kernel
  obtain ⟨h',t,hr,-⟩ := built_graph_implements_ordered_set hg ops 3 hops (by decide)
  exact ⟨g,hg,h',hr.trans (by rw [hans])⟩

end LocalSkipGraph

end SkipGraph
