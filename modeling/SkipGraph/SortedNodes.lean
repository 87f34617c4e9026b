import SkipGraph.BuiltGraph

/-!
# Linking sorted nodes

The fixture of the link tests: nodes over one hub with ascending identifiers and empty
tables. One after the other, from the first to the last, each asks some node before it for
a link; the request is forwarded to the end of the chain and accepted there. The tests'
own check of the result is exact.
-/

namespace SkipGraph

open Transition StrictOrder BaseNode NetworkHub

namespace Sys

variable {s t : Sys} {I : Finset Identifier} {x y dest : Identifier} {d : Direction} {req : LinkReq}
  {h : NetworkHub} {fuel : ℕ}

def Neighbor (d : Direction) (I : Finset Identifier) (x : Identifier) : Option Identifier → Prop
  | some y => IsNext d.lt I x y
  | none => IsLast d.lt I x

theorem Neighbor.unique {o o' : Option Identifier} (h : Neighbor d I x o) (h' : Neighbor d I x o') :
    o = o' := by
  cases o with
  | none =>
    cases o' with
    | none => rfl
    | some y => exact absurd h'.after (h y h'.mem)
  | some y =>
    cases o' with
    | none => exact absurd h.after (h' y h.mem)
    | some y' => exact congrArg some (IsNext.unique h h')

theorem listed_iff : s.Listed I ↔
    ∀ x ∈ I, ∀ d, Neighbor d I x ((s.entry x 0 d).map Identity.id) := by
  constructor
  · intro hs x hx d
    cases he : s.entry x 0 d with
    | none => exact hs.last x hx d he
    | some e => exact hs.next x hx d e he
  · intro hs
    refine ⟨fun x hx d e he => ?_,fun x hx d he => ?_⟩
    · have hh := hs x hx d
      rwa [he] at hh
    · have hh := hs x hx d
      rwa [he] at hh

theorem Listed.forward (hs : s.Listed I) (hI : I ⊆ s.members)
    (hin : s.inflight = [⟨y,.getLinkOp req⟩]) (hl : req.level = 0) (hy : y ∈ I)
    (hlt : req.dir.lt y req.candidate.id) :
    ∃ k r, k ≤ (past req.dir.lt I y).card ∧ r ∈ I ∧ req.dir.lt r req.candidate.id ∧
      (∀ e, s.entry r 0 req.dir = some e → req.dir.le req.candidate.id e.id) ∧
      Trace Sys.step NoError s (chain k) { s with inflight := [⟨r,.getLinkOp req⟩] } := by
  induction hc : (past req.dir.lt I y).card using Nat.strong_induction_on generalizing s y with
  | _ c ih =>
  have hstay : { s with inflight := [⟨y,.getLinkOp req⟩] } = s := by rw [← hin]
  by_cases hnear : ∀ e, s.entry y 0 req.dir = some e → req.dir.le req.candidate.id e.id
  · exact ⟨0,y,Nat.zero_le _,hy,hlt,hnear,by rw [hstay]; exact .nil _⟩
  · push Not at hnear
    obtain ⟨e,he,hle⟩ := hnear
    have hn := hs.next y hy req.dir e he
    have hlte : req.dir.lt e.id req.candidate.id := Direction.not_le.mp hle
    have hh : s.handle ⟨y,.getLinkOp req⟩ = ⟨s.node y,[⟨e.id,.getLinkOp req⟩],.ok ()⟩ := by
      rcases (s.node y).handleGetLinkRequest_cases reliable req with
        ⟨hb,-⟩ | ⟨-,e',he',-,hh⟩ | ⟨-,n',hins,-⟩
      · have hbel : (s.node y).belongsInOwnSlot req.level req.dir req.candidate = true :=
          belongsInOwnSlot_iff.mpr ⟨by rw [hl]; decide,by rwa [s.node_id],by simp [hl]⟩
        simp [hb] at hbel
      · rw [hl] at he'
        obtain rfl := Option.some.inj (he'.symm.trans he)
        exact hh
      · have hnear := hins.nearer
        rw [hl] at hnear
        exact absurd (hnear e he) hle
    have hstep := step_reading hin (hI hy) (by rw [hh])
    rw [hh] at hstep
    let s' : Sys := { s with inflight := [⟨e.id,.getLinkOp req⟩] }
    have hs' : s'.Listed I := ⟨hs.next,hs.last⟩
    have hcard := card_past_lt hn.mem hn.after
    obtain ⟨k,r,hk,hr,hrlt,hrn,htr⟩ := ih _ (hc ▸ hcard) hs' hI rfl hn.mem hlte rfl
    refine ⟨k+1,r,by omega,hr,hrlt,hrn,(trace_cons hstep).mpr ⟨?_,htr⟩⟩
    exact (noError_iff hin).mpr (by rw [hh])

/-- A node past all nodes of the graph is linked to the last of them, whichever it asks. -/
theorem Calm.link_past (hc : s.Calm I) (hr : h.Runs s) (hx : x ∈ s.members)
    (hpast : ∀ z ∈ I, d.lt z x) (hdest : dest ∈ I) (hf : s.members.card < fuel) (nonce : Nonce) :
    ∃ h' t, h.sendLinkRequest fuel x dest d 0 nonce = some (h',.ok ()) ∧ h'.Runs t ∧
      t.Calm (insert x I) ∧ t.members = s.members := by
  have hnew : x ∉ I := fun hxI => Direction.lt_irrefl (hpast x hxI)
  let u := s.requesting x nonce (.link dest d 0)
  have hcand : (s.identity x).id = x := identity_id s x
  have hlisted : u.Listed I := by
    have he : u.entry = s.entry := requesting_entry
    exact ⟨by rw [he]; exact hc.listed.next,by rw [he]; exact hc.listed.last⟩
  have huin : u.inflight = [⟨dest,.getLinkOp ⟨nonce,s.identity x,d,0⟩⟩] := rfl
  obtain ⟨k,r,hk,hrI,hrlt,hrn,htr⟩ := hlisted.forward hc.subset huin rfl hdest
    (by rw [hcand]; exact hpast dest hdest)
  rw [hcand] at hrlt
  have hent : u.entry r 0 d = s.entry r 0 d := by rw [show u.entry = s.entry from requesting_entry]
  -- everything is before `x`, so the last node has an empty slot
  have hlast : s.entry r 0 d = none := by
    cases he : s.entry r 0 d with
    | none => rfl
    | some e =>
      have hle := hrn e (hent.trans he)
      rw [hcand] at hle
      exact absurd (hpast e.id (hc.entries r hrI 0 d e he)) (Direction.not_lt.mpr hle)
  have hkI : k < I.card := lt_of_le_of_lt hk (card_past_lt_card (r := d.lt) hdest)
  have hIx : I.card < s.members.card :=
    Finset.card_lt_card ⟨hc.subset,fun hsub => hnew (hsub hx)⟩
  obtain ⟨h',t,hsend,hrun,hm,-,he,hi⟩ := link_arrives hr hc.idle hx (hc.subset hrI) hrlt
    (by simp [hlast]) (hc.fresh x hx hnew _ _) htr (show k+1 < fuel by omega)
  have hnear : Nearest d I x r := ⟨hrI,Direction.le_of_lt hrlt,fun z hz _ =>
    Direction.not_lt.mp (hc.listed.last r hrI d hlast z hz)⟩
  refine ⟨h',t,hsend,hrun,hc.joined hx hnew hnear hm hi ?_,hm⟩
  rw [he,hlast,paired_eq_joined]
  exact fun hxr => hnew (hxr ▸ hrI)

end Sys

/-- One slot of the check. Of a failed assertion only the message is kept, not the values. -/
def slotHolds (lt : ArrayLookupTable) (level : ℕ) (d : Direction) (expected : Option Identifier)
    (message : String) : Except String Unit :=
  match lt.getEntry level d with
  | .error _ => .error "get_entry should not error"
  | .ok e => if e.map Identity.id = expected then .ok () else .error message

/-- What the node at position `i` must hold: nothing at the two ends. -/
def chainNeighbor (ids : List Identifier) (i : ℕ) : Direction → Option Identifier
  | .left => if i = 0 then none else ids[i-1]?
  | .right => ids[i+1]?

def nodeHolds (ids : List Identifier) (level : ℕ) (lt : ArrayLookupTable) (i : ℕ) :
    Except String Unit := do
  slotHolds lt level .left (chainNeighbor ids i .left)
    s!"node {i}'s own left slot at level {level} must hold the node below it in the chain"
  slotHolds lt level .right (chainNeighbor ids i .right)
    s!"node {i}'s own right slot at level {level} must hold the node above it in the chain"

def assertDoublyLinkedAtLevel (ids : List Identifier) (tables : List ArrayLookupTable)
    (level : ℕ) : Except String Unit :=
  if ids.length ≠ tables.length then .error "one lookup table per identifier is required"
  else tables.zipIdx.forM fun (lt,i) => nodeHolds ids level lt i

section Check

variable {ids : List Identifier} {tables : List ArrayLookupTable} {level i : ℕ} {d : Direction}
  {x : Identifier} {lt : ArrayLookupTable}

theorem slotHolds_eq_ok {expected : Option Identifier} {message : String} :
    slotHolds lt level d expected message = .ok () ↔
      level < lookupTableLevels ∧ (lt.entry level d).map Identity.id = expected := by
  by_cases hl : level < lookupTableLevels
  · simp [slotHolds,ArrayLookupTable.getEntry_eq hl,hl]
  · simp [slotHolds,ArrayLookupTable.getEntry,hl]

theorem nodeHolds_eq_ok : nodeHolds ids level lt i = .ok () ↔
    ∀ d, level < lookupTableLevels ∧ (lt.entry level d).map Identity.id = chainNeighbor ids i d := by
  unfold nodeHolds
  constructor
  · intro h
    cases hleft : slotHolds lt level .left (chainNeighbor ids i .left)
      s!"node {i}'s own left slot at level {level} must hold the node below it in the chain" with
    | error e =>
      rw [hleft] at h
      exact absurd h (by simp [bind,Except.bind])
    | ok u =>
      rw [hleft] at h
      intro d
      cases d with
      | left => exact slotHolds_eq_ok.mp hleft
      | right => exact slotHolds_eq_ok.mp h
  · intro h
    rw [slotHolds_eq_ok.mpr (h .left)]
    exact slotHolds_eq_ok.mpr (h .right)

theorem forM_eq_ok {α : Type} {f : α → Except String Unit} {xs : List α} :
    xs.forM f = .ok () ↔ ∀ x ∈ xs, f x = .ok () := by
  induction xs with
  | nil => exact ⟨fun _ x hx => absurd hx List.not_mem_nil,fun _ => rfl⟩
  | cons x xs ih =>
    rw [List.forall_mem_cons,← ih]
    show (f x).bind (fun _ => xs.forM f) = .ok () ↔ _
    cases f x <;> simp [Except.bind]

/-- In an ascending list the neighbours are the positions before and after. -/
theorem neighbor_chain (hasc : ids.Pairwise (· < ·)) (hx : ids[i]? = some x) (d : Direction) :
    Sys.Neighbor d ids.toFinset x (chainNeighbor ids i d) := by
  obtain ⟨hi,rfl⟩ := List.getElem?_eq_some_iff.mp hx
  have hlt := List.pairwise_iff_getElem.mp hasc
  -- the order of two members is that of their positions
  have hpos : ∀ j k (hj : j < ids.length) (hk : k < ids.length), ids[j] < ids[k] → j < k := by
    intro j k hj hk hjk
    rcases lt_trichotomy j k with h | rfl | h
    · exact h
    · exact absurd hjk (lt_irrefl _)
    · exact absurd (hlt k j hk hj h) (lt_asymm hjk)
  have hmem : ∀ {z}, z ∈ ids.toFinset → ∃ k, ∃ hk : k < ids.length, ids[k] = z := fun hz =>
    List.getElem_of_mem (List.mem_toFinset.mp hz)
  cases d with
  | left =>
    by_cases h0 : i = 0
    · subst h0
      intro z hz hzx
      obtain ⟨k,hk,rfl⟩ := hmem hz
      have := hpos k 0 hk hi hzx
      omega
    · have hi' : i-1 < ids.length := by omega
      simp only [chainNeighbor,h0,if_false,List.getElem?_eq_getElem hi']
      refine ⟨List.mem_toFinset.mpr (List.getElem_mem hi'),hlt (i-1) i hi' hi (by omega),?_⟩
      intro z hz hzx hxz
      obtain ⟨k,hk,rfl⟩ := hmem hz
      have := hpos k i hk hi hzx
      have := hpos (i-1) k hi' hk hxz
      omega
  | right =>
    by_cases hi' : i+1 < ids.length
    · simp only [chainNeighbor,List.getElem?_eq_getElem hi']
      refine ⟨List.mem_toFinset.mpr (List.getElem_mem hi'),hlt i (i+1) hi hi' (by omega),?_⟩
      intro z hz hxz hzx
      obtain ⟨k,hk,rfl⟩ := hmem hz
      have := hpos i k hi hk hxz
      have := hpos k (i+1) hk hi' hzx
      omega
    · simp only [chainNeighbor,List.getElem?_eq_none (Nat.not_lt.mp hi')]
      intro z hz hxz
      obtain ⟨k,hk,rfl⟩ := hmem hz
      have := hpos i k hi hk hxz
      omega

/-- The check passes exactly when each node holds its neighbours on both sides. -/
theorem assertDoublyLinkedAtLevel_eq_ok (hasc : ids.Pairwise (· < ·)) :
    assertDoublyLinkedAtLevel ids tables level = .ok () ↔ ids.length = tables.length ∧
      ∀ (i : ℕ) x (lt : ArrayLookupTable), ids[i]? = some x → tables[i]? = some lt → ∀ d,
        level < lookupTableLevels ∧ Sys.Neighbor d ids.toFinset x ((lt.entry level d).map Identity.id) := by
  unfold assertDoublyLinkedAtLevel
  by_cases hlen : ids.length = tables.length
  · have hslot : ∀ i x (lt : ArrayLookupTable) d, ids[i]? = some x → ((lt.entry level d).map Identity.id =
        chainNeighbor ids i d ↔ Sys.Neighbor d ids.toFinset x ((lt.entry level d).map Identity.id)) :=
      fun i x lt d hx => ⟨fun he => he ▸ neighbor_chain hasc hx d,
        fun hn => hn.unique (neighbor_chain hasc hx d)⟩
    rw [if_neg (not_not.mpr hlen),forM_eq_ok]
    constructor
    · intro hall
      refine ⟨hlen,fun i x lt hx hlt d => ?_⟩
      have hh := nodeHolds_eq_ok.mp (hall (lt,i) (List.mem_zipIdx_iff_getElem?.mpr hlt)) d
      exact ⟨hh.1,(hslot i x lt d hx).mp hh.2⟩
    · rintro ⟨-,hall⟩ ⟨lt,i⟩ hm
      have hlt : tables[i]? = some lt := List.mem_zipIdx_iff_getElem?.mp hm
      have hi : i < ids.length := hlen ▸ (List.getElem?_eq_some_iff.mp hlt).1
      have hx := List.getElem?_eq_getElem hi
      refine nodeHolds_eq_ok.mpr fun d => ?_
      obtain ⟨hl,hn⟩ := hall i _ lt hx hlt d
      exact ⟨hl,(hslot i _ lt d hx).mpr hn⟩
  · simp [hlen]

end Check

/-- The hub of the fixture, for given draws; the tables of the nodes are empty. -/
def sortedNodesFixture {n : ℕ} (draws : Fin n → Identifier) (mvs : Fin n → MembershipVector)
    (addresses : Fin n → Address) : Except Error NetworkHub :=
  (LocalSkipGraph.unlinked draws mvs addresses).register

namespace NetworkHub

def table (h : NetworkHub) (x : Identifier) : ArrayLookupTable :=
  ((h.node x).map fun n => n.core.lt).getD .new

/-- One link request after the other: candidate `c` asks node `ask c` for its slot on side `d`. -/
def linkAll {n : ℕ} (fuel : ℕ) (ids : Fin n → Identifier) (ask : Fin n → Fin n) (d : Direction)
    (nonces : Fin n → Nonce) (h : NetworkHub) : List (Fin n) → Returns Unit
  | [] => some (h,.ok ())
  | c::cs => (h.sendLinkRequest fuel (ids c) (ids (ask c)) d 0 (nonces c)).andThen fun h _ =>
      h.linkAll fuel ids ask d nonces cs

def candidates (n : ℕ) : Direction → List (Fin n)
  | .left => (List.finRange n).dropLast.reverse
  | .right => (List.finRange n).drop 1

variable {n : ℕ} {ids : Fin n → Identifier} {ask : Fin n → Fin n} {d : Direction}
  {h : NetworkHub} {s : Sys} {I : Finset Identifier} {cs : List (Fin n)}

theorem linkAll_ok (hc : s.Calm I) (hr : h.Runs s) (hmem : ∀ j, ids j ∈ s.members)
    (hcs : cs.Pairwise fun a b => d.lt (ids a) (ids b))
    (hpast : ∀ z ∈ I, ∀ c ∈ cs, d.lt z (ids c)) (hcover : ∀ j, ids j ∈ I ∨ j ∈ cs)
    (hask : ∀ c ∈ cs, d.lt (ids (ask c)) (ids c)) (nonces : Fin n → Nonce) (fuel : ℕ)
    (hf : s.members.card < fuel) :
    ∃ h' t J, h.linkAll fuel ids ask d nonces cs = some (h',.ok ()) ∧ h'.Runs t ∧ t.Calm J ∧
      t.members = s.members ∧ ∀ j, ids j ∈ J := by
  induction cs generalizing h s I with
  | nil => exact ⟨h,s,I,rfl,hr,hc,rfl,fun j => (hcover j).resolve_right List.not_mem_nil⟩
  | cons c cs ih =>
    obtain ⟨hlater,hcs⟩ := List.pairwise_cons.mp hcs
    have hasked : ids (ask c) ∈ I := by
      refine (hcover (ask c)).resolve_right fun hm => ?_
      have hlt := hask c (by simp)
      rcases List.mem_cons.mp hm with he | hm
      · rw [he] at hlt
        exact Direction.lt_irrefl hlt
      · exact Direction.lt_irrefl (Direction.lt_trans hlt (hlater _ hm))
    obtain ⟨h₁,s₁,hs,hr₁,hc₁,hm₁⟩ := hc.link_past hr (hmem c) (fun z hz => hpast z hz c (by simp))
      hasked hf (nonces c)
    obtain ⟨h',t,J,hl,hrun,hJ,hm,hall⟩ := ih hc₁ hr₁ (by rw [hm₁]; exact hmem) hcs
      (by
        intro z hz c' hc'
        rcases Finset.mem_insert.mp hz with rfl | hz
        · exact hlater c' hc'
        · exact hpast z hz c' (by simp [hc']))
      (by
        intro j
        rcases hcover j with hj | hj
        · exact .inl (Finset.mem_insert_of_mem hj)
        · rcases List.mem_cons.mp hj with rfl | hj
          · exact .inl (Finset.mem_insert_self _ _)
          · exact .inr hj)
      (fun c' hc' => hask c' (by simp [hc'])) (by rw [hm₁]; exact hf)
    exact ⟨h',t,J,by simp [linkAll,hs,hl],hrun,hJ,hm.trans hm₁,hall⟩

def first (n : ℕ) : Direction → Fin (n+1)
  | .left => Fin.last n
  | .right => 0

theorem mem_candidates (d : Direction) (j : Fin (n+1)) : j = first n d ∨ j ∈ candidates (n+1) d := by
  cases d with
  | left =>
    refine Fin.lastCases (.inl rfl) (fun i => .inr ?_) j
    simp [candidates,List.finRange_succ_last]
  | right =>
    refine Fin.cases (.inl rfl) (fun i => .inr ?_) j
    simp [candidates,List.finRange_succ]

theorem candidates_pairwise {ids : Fin (n+1) → Identifier} (hmono : StrictMono ids) (d : Direction) :
    (first n d::candidates (n+1) d).Pairwise fun a b => d.lt (ids a) (ids b) := by
  cases d with
  | left =>
    have hrev : first n .left::candidates (n+1) .left = (List.finRange (n+1)).reverse := by
      simp [first,candidates,List.finRange_succ_last]
    rw [hrev,List.pairwise_reverse]
    exact (List.pairwise_lt_finRange (n+1)).imp fun hab => hmono hab
  | right =>
    have hall : first n .right::candidates (n+1) .right = List.finRange (n+1) := by
      simp [first,candidates,List.finRange_succ]
    rw [hall]
    exact (List.pairwise_lt_finRange (n+1)).imp fun hab => hmono hab

theorem assert_of_listed {ids : Fin n → Identifier} (hmono : StrictMono ids) (hr : h.Runs s)
    (hm : s.members = Finset.univ.image ids) (hs : s.Listed s.members) :
    assertDoublyLinkedAtLevel (List.ofFn ids) (List.ofFn fun i => h.table (ids i)) 0 = .ok () := by
  have hasc : (List.ofFn ids).Pairwise (· < ·) := List.pairwise_ofFn.mpr fun i j hij => hmono hij
  have hset : (List.ofFn ids).toFinset = s.members := by
    rw [hm]
    ext x
    simp
  refine (assertDoublyLinkedAtLevel_eq_ok hasc).mpr ⟨by simp,fun i x lt hx hlt d => ?_⟩
  refine ⟨by decide,?_⟩
  obtain ⟨hi,hx⟩ := List.getElem?_eq_some_iff.mp hx
  obtain ⟨_,hlt⟩ := List.getElem?_eq_some_iff.mp hlt
  rw [List.getElem_ofFn] at hx hlt
  have hxm : x ∈ s.members := by
    rw [hm,← hx]
    exact Finset.mem_image_of_mem ids (Finset.mem_univ _)
  have htable : lt = (s.node x).core.lt := by
    rw [← hlt,hx,table,hr.node hxm]
    rfl
  rw [hset,htable]
  exact Sys.listed_iff.mp hs x hxm d

/-- Any number of nodes that link one after the other from one end, each through whichever node
before it, form the sorted doubly linked list: every request resolves and the check passes. -/
theorem link_requests_build_list {draws : Fin (n+1) → Identifier}
    (hinj : Function.Injective draws) (mvs : Fin (n+1) → MembershipVector)
    (addresses : Fin (n+1) → Address) (d : Direction) (ask : Fin (n+1) → Fin (n+1))
    (hask : ∀ c ∈ candidates (n+1) d, d.lt (randomSortedIdentifiers draws (ask c))
      (randomSortedIdentifiers draws c)) (nonces : Fin (n+1) → Nonce) (fuel : ℕ)
    (hf : n+1 < fuel) :
    ∃ h h', sortedNodesFixture draws mvs addresses = .ok h ∧
      h.linkAll fuel (randomSortedIdentifiers draws) ask d nonces (candidates (n+1) d) =
        some (h',.ok ()) ∧
      assertDoublyLinkedAtLevel (List.ofFn (randomSortedIdentifiers draws))
        (List.ofFn fun i => h'.table (randomSortedIdentifiers draws i)) 0 = .ok () := by
  let g := LocalSkipGraph.unlinked draws mvs addresses
  have hmono : StrictMono g.identifiers := (randomSortedIdentifiers_monotone draws).strictMono_of_injective
    ((randomSortedIdentifiers_injective draws).mpr hinj)
  have hmem : ∀ j, g.identifiers j ∈ g.sys.members := fun j => LocalSkipGraph.mem_members.mpr ⟨j,rfl⟩
  have hcalm : g.sys.Calm {g.identifiers (first n d)} := by
    refine Sys.calm_singleton (hmem _) (fun y hy l δ => ?_) fun y hy => ?_
    · obtain ⟨j,rfl⟩ := LocalSkipGraph.mem_members.mp hy
      rw [LocalSkipGraph.sys_entry hmono.injective]
      simp [g,LocalSkipGraph.entry,LocalSkipGraph.unlinked]
    · obtain ⟨j,rfl⟩ := LocalSkipGraph.mem_members.mp hy
      rw [LocalSkipGraph.sys_node hmono.injective]
      exact fun _ => rfl
  obtain ⟨hfirst,hcs⟩ := List.pairwise_cons.mp (candidates_pairwise hmono d)
  have hcard : g.sys.members.card ≤ n+1 := Finset.card_image_le.trans (by simp)
  obtain ⟨h',t,J,hl,hr,hJ,hm,hall⟩ := linkAll_ok hcalm
    (LocalSkipGraph.hub_runs hmono.injective) hmem hcs
    (fun z hz c hc => Finset.mem_singleton.mp hz ▸ hfirst c hc)
    (fun j => (mem_candidates d j).imp_left fun he => by simp [he]) hask nonces fuel (by omega)
  have hJm : J = t.members := by
    refine Finset.Subset.antisymm hJ.subset fun x hx => ?_
    rw [hm] at hx
    obtain ⟨j,rfl⟩ := LocalSkipGraph.mem_members.mp hx
    exact hall j
  refine ⟨g.hub,h',LocalSkipGraph.register_eq_hub hmono.injective rfl,hl,?_⟩
  exact assert_of_listed hmono hr hm (hJm ▸ hJ.listed)

/-- Four nodes link rightward through the smallest, as in the test of two forwards. -/
theorem link_requests_build_list_of_four :
    let draws : Fin 4 → Identifier := ![.ofByte 7,.ofByte 1,.ofByte 5,.ofByte 3]
    ∃ h h', sortedNodesFixture draws (fun _ => ⟨Vector.replicate _ 0⟩) (fun _ => ⟨"",""⟩) = .ok h ∧
      h.linkAll 5 (randomSortedIdentifiers draws) (fun _ => 0) .right (fun _ => ⟨0⟩)
        (candidates 4 .right) = some (h',.ok ()) ∧
      assertDoublyLinkedAtLevel (List.ofFn (randomSortedIdentifiers draws))
        (List.ofFn fun i => h'.table (randomSortedIdentifiers draws i)) 0 = .ok () := by
  intro draws
  have hinj : Function.Injective draws := by decide
  have hmono : StrictMono (randomSortedIdentifiers draws) :=
    (randomSortedIdentifiers_monotone draws).strictMono_of_injective
      ((randomSortedIdentifiers_injective draws).mpr hinj)
  exact link_requests_build_list hinj _ _ .right (fun _ => 0)
    (fun c hc => hmono (Fin.pos_iff_ne_zero.mpr fun he => absurd (he ▸ hc) (by decide))) _ 5
    (by decide)

end NetworkHub

end SkipGraph
