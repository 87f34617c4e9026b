import SkipGraph.Handlers
import SkipGraph.Transition

/-!
# The table under any list of events

Both link handlers keep the nearer of the entry and a candidate that belongs in the
slot, and no other handler writes. So each slot ends with the nearest of what it was
offered, whatever the order; and the one handler that writes before it sends is the
one that can fail with a changed table.
-/

namespace SkipGraph

open StrictOrder

/-- The slot that an event names and the identity it proposes for it. -/
def Event.offer? : Event → Option (ℕ × Direction × Identity)
  | .getLinkOp req => some (req.level,req.dir,req.candidate)
  | .setLinkOp res => res.linked.map fun c => (res.level,res.dir,c)
  | _ => none

theorem Event.offer?_eq_some {ev : Event} {l : ℕ} {d : Direction} {c : Identity} :
    ev.offer? = some (l,d,c) ↔ ev.Offers l d c := by
  cases ev with
  | getLinkOp req =>
    obtain ⟨nonce,candidate,dir,level⟩ := req
    simp [offer?,Offers]
    tauto
  | setLinkOp res =>
    obtain ⟨nonce,dir,level,linked⟩ := res
    simp [offer?,Offers]
    tauto
  | _ => simp [offer?,Offers]

namespace BaseNode

variable {net : Network} {n n' : BaseNode} {ev : Event} {l : ℕ} {d : Direction} {c : Identity}

/-- The identity that an event proposes for a slot, if it belongs there. -/
def validOffer (n : BaseNode) (l : ℕ) (d : Direction) (ev : Event) : Option Identity :=
  match ev.offer? with
  | some (l',d',c) => if l' = l ∧ d' = d ∧ n.belongsInOwnSlot l d c = true then some c else none
  | none => none

theorem validOffer_eq_some : n.validOffer l d ev = some c ↔
    ev.Offers l d c ∧ n.belongsInOwnSlot l d c = true := by
  rw [← Event.offer?_eq_some,validOffer]
  split
  · rename_i l' d' c' ho
    simp only [ho,Option.some.injEq,Prod.mk.injEq]
    split
    · rename_i h
      obtain ⟨rfl,rfl,hb⟩ := h
      simp only [Option.some.injEq,true_and]
      exact ⟨by rintro rfl; exact ⟨rfl,hb⟩,fun h => h.1⟩
    · rename_i h
      simp only [reduceCtorEq,false_iff]
      rintro ⟨⟨rfl,rfl,rfl⟩,hb⟩
      exact h ⟨rfl,rfl,hb⟩
  · rename_i ho
    simp [ho]

theorem belongsInOwnSlot_congr (h : n'.selfIdentity = n.selfIdentity) :
    n'.belongsInOwnSlot l d c = n.belongsInOwnSlot l d c := by
  have hid : n'.id = n.id := congrArg Identity.id h
  have hmv : n'.memVec = n.memVec := congrArg Identity.memVec h
  rw [Bool.eq_iff_iff,belongsInOwnSlot_iff,belongsInOwnSlot_iff,hid,hmv]

theorem validOffer_congr (h : n'.selfIdentity = n.selfIdentity) :
    n'.validOffer l d ev = n.validOffer l d ev := by
  simp only [validOffer,belongsInOwnSlot_congr h]

theorem Installs.entry_eq {l' : ℕ} {d' : Direction} (h : Installs n l' d' c n') :
    n'.entry l d = if l' = l ∧ d' = d then keepNearer d.lt Identity.id (n.entry l d) c
      else n.entry l d := by
  rw [h.entry]
  by_cases hs : l' = l ∧ d' = d
  · obtain ⟨rfl,rfl⟩ := hs
    simp only [and_self,if_true]
    cases he : n.entry l' d' with
    | none => rfl
    | some e => simp [keepNearer,Direction.not_lt.mpr (h.nearer e he)]
  · have hs' : ¬ (l = l' ∧ d = d') := fun h => hs ⟨h.1.symm,h.2.symm⟩
    simp [hs,hs']

theorem validOffer_of_offer {l' : ℕ} {d' : Direction} (ho : ev.offer? = some (l',d',c))
    (hb : n.belongsInOwnSlot l' d' c = true) (l : ℕ) (d : Direction) :
    n.validOffer l d ev = if l' = l ∧ d' = d then some c else none := by
  by_cases hs : l' = l ∧ d' = d
  · obtain ⟨rfl,rfl⟩ := hs
    simp [validOffer,ho,hb]
  · have hs' : ¬ (l' = l ∧ d' = d ∧ n.belongsInOwnSlot l d c = true) := fun h => hs ⟨h.1,h.2.1⟩
    simp [validOffer,ho,hs,hs']

theorem keepNearer_of_farther {l' : ℕ} {d' : Direction} {e : Identity}
    (ho : ev.offer? = some (l',d',c))
    (hb : n.belongsInOwnSlot l' d' c = true) (he : n.entry l' d' = some e)
    (hlt : d'.lt e.id c.id) (l : ℕ) (d : Direction) :
    (n.validOffer l d ev).elim (n.entry l d) (keepNearer d.lt Identity.id (n.entry l d)) =
      n.entry l d := by
  rw [validOffer_of_offer ho hb]
  by_cases hs : l' = l ∧ d' = d
  · obtain ⟨rfl,rfl⟩ := hs
    simp [he,keepNearer,hlt]
  · simp [hs]

theorem Installs.keepNearer {l' : ℕ} {d' : Direction} {n' : BaseNode}
    (hi : Installs n l' d' c n') (ho : ev.offer? = some (l',d',c))
    (hb : n.belongsInOwnSlot l' d' c = true) (l : ℕ) (d : Direction) : n'.entry l d =
      (n.validOffer l d ev).elim (n.entry l d)
        (StrictOrder.keepNearer d.lt Identity.id (n.entry l d)) := by
  rw [validOffer_of_offer ho hb,hi.entry_eq]
  by_cases hs : l' = l ∧ d' = d <;> simp [hs]

/-- An event leaves in each slot the nearer of the entry and its valid offer. -/
theorem process_entry_eq (net : Network) (n : BaseNode) (ev : Event) (l : ℕ) (d : Direction) :
    (n.processIncomingEvent net ev).node.entry l d =
      (n.validOffer l d ev).elim (n.entry l d) (keepNearer d.lt Identity.id (n.entry l d)) := by
  by_cases hg : ∃ req, ev = .getLinkOp req
  · obtain ⟨req,rfl⟩ := hg
    rcases handleGetLinkRequest_cases net n req with ⟨hb,h⟩ | ⟨hb,e,he,hlt,h⟩ | ⟨hb,n',hi,h⟩
    · have hn : n.validOffer l d (.getLinkOp req) = none := by
        simp only [validOffer,Event.offer?]
        rw [if_neg]
        rintro ⟨rfl,rfl,hh⟩
        simp [hb] at hh
      simp [processIncomingEvent,h,hn]
    · simpa [processIncomingEvent,h] using (keepNearer_of_farther rfl hb he hlt l d).symm
    · simpa [processIncomingEvent,h] using hi.keepNearer rfl hb l d
  by_cases hs : ∃ res, ev = .setLinkOp res
  · obtain ⟨res,rfl⟩ := hs
    obtain ⟨m,h,hm⟩ := handleSetLinkResponse_cases n res
    simp only [processIncomingEvent,h,entry_resolveWaiter]
    rcases hm with ⟨rfl,hstay⟩ | ⟨c,hc,hb,hi⟩
    · cases hv : n.validOffer l d (.setLinkOp res) with
      | none => rfl
      | some c =>
        obtain ⟨ho,hb⟩ := validOffer_eq_some.mp hv
        rw [← hv]
        have ho' := Event.offer?_eq_some.mpr ho
        obtain ⟨c',hc',he⟩ := Option.map_eq_some_iff.mp ho'
        obtain ⟨rfl,rfl,rfl⟩ : res.level = l ∧ res.dir = d ∧ c' = c := by simpa using he
        obtain ⟨e,he,hlt⟩ := hstay c' hc' hb
        exact (keepNearer_of_farther ho' hb he hlt _ _).symm
    · exact hi.keepNearer (by simp [Event.offer?,hc]) hb l d
  · have hcore := process_core net n (fun req he => hg ⟨req,he⟩) fun res he => hs ⟨res,he⟩
    have hn : n.validOffer l d ev = none := by
      cases hv : n.validOffer l d ev with
      | none => rfl
      | some c =>
        rcases (validOffer_eq_some.mp hv).1 with ⟨nonce,rfl⟩ | ⟨nonce,rfl⟩
        · exact absurd ⟨_,rfl⟩ hg
        · exact absurd ⟨_,rfl⟩ hs
    simp [entry,hcore,hn]

/-- Process events one after the other; a failed one does not stop the next. -/
def processAll (net : Network) (n : BaseNode) (evs : List Event) : BaseNode :=
  evs.foldl (fun n ev => (n.processIncomingEvent net ev).node) n

theorem processAll_append (net : Network) (n : BaseNode) (evs evs' : List Event) :
    n.processAll net (evs++evs') = (n.processAll net evs).processAll net evs' := by
  simp [processAll]

theorem processAll_entry (net : Network) (n : BaseNode) (evs : List Event) (l : ℕ)
    (d : Direction) : (n.processAll net evs).entry l d =
      (evs.filterMap (n.validOffer l d)).foldl (keepNearer d.lt Identity.id) (n.entry l d) := by
  induction evs generalizing n with
  | nil => rfl
  | cons ev evs ih =>
    have hself := process_selfIdentity net n ev
    have hoff : (n.processIncomingEvent net ev).node.validOffer l d = n.validOffer l d := by
      funext ev'
      exact validOffer_congr hself
    have hh := ih (n.processIncomingEvent net ev).node
    rw [process_entry_eq,hoff] at hh
    refine hh.trans ?_
    cases hv : n.validOffer l d ev <;> simp [hv]

/-- The identities that compete for a slot: its entry and the offers that belong there. -/
def Competes (n : BaseNode) (evs : List Event) (l : ℕ) (d : Direction) : Set Identity :=
  {c | n.entry l d = some c} ∪
    {c | ∃ ev ∈ evs, ev.Offers l d c ∧ n.belongsInOwnSlot l d c = true}

def Names (n : BaseNode) (evs : List Event) : Set Identity :=
  {c | (∃ l d, n.entry l d = some c) ∨ ∃ ev ∈ evs, ∃ l d, ev.Offers l d c}

theorem competes_subset (n : BaseNode) (evs : List Event) (l : ℕ) (d : Direction) :
    n.Competes evs l d ⊆ n.Names evs := by
  rintro c (hc | ⟨ev,hev,ho,-⟩)
  · exact .inl ⟨l,d,hc⟩
  · exact .inr ⟨ev,hev,l,d,ho⟩

theorem competes_congr {evs evs' : List Event} (h : ∀ ev, ev ∈ evs' ↔ ev ∈ evs) :
    n.Competes evs' l d = n.Competes evs l d := by
  simp only [Competes,h]

theorem processAll_isNearest (net : Network) (n : BaseNode) (evs : List Event) (l : ℕ)
    (d : Direction) :
    IsNearest d.lt Identity.id (n.Competes evs l d) ((n.processAll net evs).entry l d) := by
  have hentry : IsNearest d.lt Identity.id {c | n.entry l d = some c} (n.entry l d) :=
    isNearest_toSet _
  have h := hentry.foldl (evs.filterMap (n.validOffer l d))
  rw [← processAll_entry net] at h
  have hset : {c | n.entry l d = some c} ∪ {c | c ∈ evs.filterMap (n.validOffer l d)} =
      n.Competes evs l d := by
    ext c
    simp only [Competes,Set.mem_union,Set.mem_ofPred_eq,List.mem_filterMap,validOffer_eq_some]
  rwa [hset] at h

/-- The table depends only on which events were processed, not on their order or number:
each slot holds the nearest of its first entry and the offers that belong there. Entries
stay, and slots without an offer are not touched. -/
theorem table_converges (net : Network) (n : BaseNode) (evs : List Event)
    (hid : ∀ c ∈ n.Names evs, ∀ c' ∈ n.Names evs, c.id = c'.id → c = c') :
    (∀ l d, IsNearest d.lt Identity.id (n.Competes evs l d) ((n.processAll net evs).entry l d)) ∧
    (∀ l d, (n.processAll net evs).entry l d = none ↔ n.Competes evs l d = ∅) ∧
    (∀ evs', (∀ ev, ev ∈ evs' ↔ ev ∈ evs) →
      (n.processAll net evs').core.lt = (n.processAll net evs).core.lt) ∧
    (∀ evs₁ evs₂, evs = evs₁++evs₂ → ∀ l d e, (n.processAll net evs₁).entry l d = some e →
      ∃ e', (n.processAll net evs).entry l d = some e') ∧
    ∀ l d, (∀ ev ∈ evs, ∀ c, ¬ ev.Offers l d c) →
      (n.processAll net evs).entry l d = n.entry l d := by
  have hnone : ∀ m evs l d, (processAll net m evs).entry l d = none ↔ m.Competes evs l d = ∅ := by
    intro m evs l d
    have h := processAll_isNearest net m evs l d
    cases he : (m.processAll net evs).entry l d with
    | none => simpa [he,IsNearest] using h
    | some c =>
      rw [he] at h
      simp only [reduceCtorEq,false_iff]
      exact Set.nonempty_iff_ne_empty.mp ⟨c,h.1⟩
  refine ⟨processAll_isNearest net n evs,hnone n evs,fun evs' hevs => ?_,?_,fun l d ho => ?_⟩
  · apply ArrayLookupTable.ext_entry
    intro l d
    have h := processAll_isNearest net n evs l d
    have h' := processAll_isNearest net n evs' l d
    rw [competes_congr hevs] at h'
    apply h'.unique _ h
    intro c hc c' hc'
    exact hid c (competes_subset n evs l d hc) c' (competes_subset n evs l d hc')
  · rintro evs₁ evs₂ rfl l d e he
    rw [← Option.ne_none_iff_exists',processAll_append,Ne,hnone]
    exact Set.nonempty_iff_ne_empty.mp ⟨e,.inl he⟩
  · have hf : evs.filterMap (n.validOffer l d) = [] := by
      apply List.filterMap_eq_nil_iff.mpr
      intro ev hev
      cases hv : n.validOffer l d ev with
      | none => rfl
      | some c => exact absurd (validOffer_eq_some.mp hv).1 (ho ev hev c)
    rw [processAll_entry,hf]
    rfl

theorem table_converges_swapped :
    let n := new ⟨.ofByte 5,⟨Vector.replicate _ 0⟩,.new⟩ ⟨"",""⟩
    let c (b : UInt8) : Identity := ⟨.ofByte b,⟨Vector.replicate _ 0⟩,⟨"",""⟩⟩
    let ev : Event := .getLinkOp ⟨⟨0⟩,c 9,.right,2⟩
    let ev' : Event := .setLinkOp ⟨⟨1⟩,.right,2,some (c 7)⟩
    (n.processAll reliable [ev,ev']).entry 2 .right = some (c 7) ∧
      (n.processAll reliable [ev',ev,ev']).core.lt = (n.processAll reliable [ev,ev']).core.lt := by
  intro n c ev ev'
  have hnames : ∀ x ∈ n.Names [ev,ev'], x = c 9 ∨ x = c 7 := by
    rintro x (⟨l,d,he⟩ | ⟨e,he,l,d,ho⟩)
    · simp [n,entry,new] at he
    · rcases List.mem_pair.mp he with rfl | rfl
      · exact .inl (by simp_all [Event.Offers,ev])
      · exact .inr (by simp_all [Event.Offers,ev'])
  have h := table_converges reliable n [ev,ev'] (by
    intro x hx y hy hxy
    rcases hnames x hx with rfl | rfl <;> rcases hnames y hy with rfl | rfl
    · rfl
    · exact absurd hxy (by decide)
    · exact absurd hxy (by decide)
    · rfl)
  exact ⟨by decide +kernel,h.2.2.1 [ev',ev,ev'] (by simp)⟩

/-- A link request that the node serves itself: the candidate belongs in the slot and
nothing there lies before it. -/
def Accepts (n : BaseNode) (req : LinkReq) : Prop :=
  n.belongsInOwnSlot req.level req.dir req.candidate = true ∧
    ∀ e, n.entry req.level req.dir = some e → ¬ req.dir.lt e.id req.candidate.id

def acceptance (n : BaseNode) (req : LinkReq) : Event :=
  .setLinkOp ⟨req.nonce,req.dir.opposite,req.level,some n.selfIdentity⟩

theorem sendEvent_error {site : Site} {dest : Identifier} {e : Error}
    (h : (n.sendEvent net site dest ev).result = .error e) :
    ∃ cause, net dest ev = .error cause ∧ e = .wrapped site cause := by
  unfold sendEvent at h
  cases hn : net dest ev with
  | ok u => simp [hn] at h
  | error cause => exact ⟨cause,rfl,by simpa [hn] using h.symm⟩

/-- An event that fails leaves the node as it was, unless it is a link request that was
accepted before its reply could not be sent. -/
theorem process_error_cases {e : Error} (h : (n.processIncomingEvent net ev).result = .error e) :
    ((n.processIncomingEvent net ev).node = n ∧ ∀ req, ev = .getLinkOp req → ¬ n.Accepts req) ∨
    ∃ req cause, ev = .getLinkOp req ∧ n.Accepts req ∧
      Installs n req.level req.dir req.candidate (n.processIncomingEvent net ev).node ∧
      net req.candidate.id (n.acceptance req) = .error cause ∧
      e = .wrapped .sendLinkResponse cause := by
  cases ev with
  | getLinkOp req =>
    rcases handleGetLinkRequest_cases net n req with ⟨hb,hp⟩ | ⟨hb,f,hf,hlt,hp⟩ | ⟨hb,n',hi,hp⟩
    · simp [processIncomingEvent,hp] at h
    · refine .inl ⟨by simp [processIncomingEvent,hp],?_⟩
      rintro _ ⟨rfl⟩ ha
      exact ha.2 f hf hlt
    · rw [processIncomingEvent,hp] at h
      obtain ⟨cause,hn,he⟩ := sendEvent_error h
      refine .inr ⟨req,cause,rfl,⟨hb,fun f hf => ?_⟩,by simpa [processIncomingEvent,hp] using hi,
        hn,he⟩
      exact Direction.not_lt.mpr (hi.nearer f hf)
  | setLinkOp res =>
    obtain ⟨m,hp,-⟩ := handleSetLinkResponse_cases n res
    simp [processIncomingEvent,hp] at h
  | searchByIdResponse res => simp [processIncomingEvent,handleSearchByIdResponse] at h
  | retMaxLevelOp res => simp [processIncomingEvent,handleRetMaxLevelResponse] at h
  | retNeighborOp res => simp [processIncomingEvent,handleRetNeighborResponse] at h
  | _ => exact .inl ⟨by simp [processIncomingEvent],by simp⟩

/-- A failed event never touches the waiters, and it touches the table only where a link
request was accepted whose reply then could not be sent: there the candidate keeps the
slot it was given, and every other slot is as before. -/
theorem failed_event_effect {e : Error} (h : (n.processIncomingEvent net ev).result = .error e) :
    (n.processIncomingEvent net ev).node.requestIdMap = n.requestIdMap ∧
    ((∀ req, ev = .getLinkOp req → ¬ n.Accepts req) →
      (n.processIncomingEvent net ev).node.core.lt = n.core.lt) ∧
    ∀ req, ev = .getLinkOp req → n.Accepts req →
      (∃ cause, net req.candidate.id (n.acceptance req) = .error cause) ∧
      ∀ l d, (n.processIncomingEvent net ev).node.entry l d =
        if l = req.level ∧ d = req.dir then some req.candidate else n.entry l d := by
  rcases process_error_cases h with ⟨hn,hna⟩ | ⟨req,cause,rfl,ha,hi,hnet,-⟩
  · rw [hn]
    exact ⟨rfl,fun _ => rfl,fun req he ha => absurd ha (hna req he)⟩
  · refine ⟨hi.requestIdMap,fun hna => absurd ha (hna req rfl),?_⟩
    rintro _ ⟨rfl⟩ -
    exact ⟨⟨cause,hnet⟩,hi.entry⟩

def beforeNine : BaseNode :=
  new ⟨.ofByte 5,⟨Vector.replicate _ 0⟩,
    ArrayLookupTable.new.put 0 .right ⟨.ofByte 9,⟨Vector.replicate _ 0⟩,⟨"",""⟩⟩⟩ ⟨"",""⟩

theorem failed_event_effect_seven :
    let c : Identity := ⟨.ofByte 7,⟨Vector.replicate _ 0⟩,⟨"",""⟩⟩
    let net : Network := fun _ _ => .error (.transport "closed")
    let ev : Event := .getLinkOp ⟨⟨0⟩,c,.right,0⟩
    (beforeNine.processIncomingEvent net ev).node.requestIdMap = beforeNine.requestIdMap ∧
      (beforeNine.processIncomingEvent net ev).node.entry 0 .right = some c ∧
      (beforeNine.processIncomingEvent net ev).node.entry 1 .right = beforeNine.entry 1 .right := by
  intro c net ev
  have hr : (beforeNine.processIncomingEvent net ev).result =
      .error (.wrapped .sendLinkResponse (.transport "closed")) := by
    decide +kernel
  have ha : beforeNine.Accepts ⟨⟨0⟩,c,.right,0⟩ := by
    refine ⟨by decide +kernel,fun e he => ?_⟩
    have h9 : beforeNine.entry 0 .right =
        some ⟨.ofByte 9,⟨Vector.replicate _ 0⟩,⟨"",""⟩⟩ := by decide +kernel
    obtain rfl := Option.some.inj (h9.symm.trans he)
    decide +kernel
  obtain ⟨hmap,-,hacc⟩ := failed_event_effect hr
  obtain ⟨-,hent⟩ := hacc _ rfl ha
  exact ⟨hmap,hent 0 .right,hent 1 .right⟩

/-- The request that evicts node 9 fails, and its candidate is never told. -/
theorem failed_event_evicts_nine :
    let c (b : UInt8) : Identity := ⟨.ofByte b,⟨Vector.replicate _ 0⟩,⟨"",""⟩⟩
    let o := beforeNine.processIncomingEvent (fun _ _ => .error (.transport "closed"))
      (.getLinkOp ⟨⟨0⟩,c 7,.right,0⟩)
    o.result = .error (.wrapped .sendLinkResponse (.transport "closed")) ∧ o.sent = [] ∧
      beforeNine.entry 0 .right = some (c 9) ∧ o.node.entry 0 .right = some (c 7) ∧
      o.node.core.lt ≠ beforeNine.core.lt := by
  intro c o
  have h9 : beforeNine.entry 0 .right = some (c 9) := by decide +kernel
  have h7 : o.node.entry 0 .right = some (c 7) := by decide +kernel
  refine ⟨by decide +kernel,by decide +kernel,h9,h7,fun h => ?_⟩
  have he : o.node.entry 0 .right = beforeNine.entry 0 .right := by rw [entry,h,entry]
  rw [h7,h9] at he
  exact absurd he (by decide)

end BaseNode

end SkipGraph
