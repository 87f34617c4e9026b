import SkipGraph.Joins

/-!
# A join that succeeds

The result of a join and the write to its table take different ways: the reply resolves the
waiter of the link request, and whatever the reply names is offered to the table. A run is
followed here with its history, because the node that accepted a request may point to a
nearer node by the time the join returns. Nothing is assumed of the other calls in the run.
-/

namespace SkipGraph

open BaseNode Transition

namespace Sys

variable {s₀ s t : Sys} {as : List Action} {a : Action} {u v dest : Identifier} {rt : RoundTrip}
  {dir : Direction} {nonce : Nonce} {req : LinkReq} {p q : Packet}

/-- In the run `as` from `s₀` node `v` was delivered the request and replied to it, with the
candidate in its own slot in the state of that moment. -/
def Accepted (s₀ : Sys) (as : List Action) (v : Identifier) (req : LinkReq) : Prop :=
  ∃ pre i post m m', as = pre++.deliver i::post ∧ Trace Sys.step DrawsFresh s₀ pre m ∧
    Delivered m i ⟨v,.getLinkOp req⟩ m' ∧
    (m.handle ⟨v,.getLinkOp req⟩).sent = [⟨req.candidate.id,
      .setLinkOp ⟨req.nonce,req.dir.opposite,req.level,some (m.identity v)⟩⟩] ∧
    m'.entry v req.level req.dir = some req.candidate

/-- The request of `u` to be linked `dir` of `dest` has succeeded: the slot of `u` on the
other side holds a node from `dest` on and before `u`, and so is the node that accepted. -/
structure LinkedBetween (s₀ : Sys) (as : List Action) (s : Sys) (u dest : Identifier) (dir : Direction)
    (nonce : Nonce) : Prop where
  slot : ∃ e, s.entry u 0 dir.opposite = some e ∧ s.Genuine e ∧ dir.le dest e.id ∧ dir.lt e.id u
  accepted : ∃ v, dir.le dest v ∧ dir.lt v u ∧ Accepted s₀ as v ⟨nonce,s.identity u,dir,0⟩

/-- The events that may carry the nonce of such a request. -/
def OnItsWay (s₀ : Sys) (as : List Action) (self : Identity) (dest : Identifier) (dir : Direction)
    (nonce : Nonce) (p : Packet) : Prop :=
  (∃ v, dir.le dest v ∧ p = ⟨v,.getLinkOp ⟨nonce,self,dir,0⟩⟩) ∨
  ∃ y : Identity, dir.le dest y.id ∧ dir.lt y.id self.id ∧
    Accepted s₀ as y.id ⟨nonce,self,dir,0⟩ ∧
    p = ⟨self.id,.setLinkOp ⟨nonce,dir.opposite,0,some y⟩⟩

/-- A run with what it has done so far for the pending link requests at level 0. -/
structure LinkHistory (s₀ : Sys) (as : List Action) (s : Sys) : Prop where
  trace : Trace Sys.step DrawsFresh s₀ as s
  honest : s.Honest
  channels : s.ChannelsInv
  packets : ∀ u ∈ s.members, ∀ rt ∈ (s.node u).waits, ∀ p ∈ s.inflight,
    p.event.nonce? = some rt.nonce → ∀ dest dir, rt.request = .link dest dir 0 →
      OnItsWay s₀ as (s.identity u) dest dir rt.nonce p
  replies : ∀ u ∈ s.members, ∀ rt ∈ (s.node u).waits, ∀ reply,
    (s.node u).oneshots[rt.rx]? = some (.sent reply) →
      ∀ dest dir, rt.request = .link dest dir 0 → LinkedBetween s₀ as s u dest dir rt.nonce

theorem Accepted.snoc (h : Accepted s₀ as v req) (a : Action) : Accepted s₀ (as++[a]) v req := by
  obtain ⟨pre,i,post,m,m',rfl,hh⟩ := h
  exact ⟨pre,i,post++[a],m,m',by simp,hh⟩

theorem LinkedBetween.step (hl : LinkedBetween s₀ as s u dest dir nonce) (hu : u ∈ s.members) (ht : t.Honest)
    (h : s.step a = some t) : LinkedBetween s₀ (as++[a]) t u dest dir nonce := by
  obtain ⟨⟨e,he,-,hle,hlt⟩,v,hv,hvu,hacc⟩ := hl
  obtain ⟨e',he',hle'⟩ := entry_step_some h he
  have hu' : u ∈ t.members := by rwa [members_step h]
  have hside : dir.le e.id e'.id := by simpa using hle'
  refine ⟨⟨e',he',ht.entries u hu' _ _ e' he',Direction.le_trans hle hside,?_⟩,v,hv,hvu,?_⟩
  · have hh := ht.sided u hu' _ _ e' he'
    simpa using hh
  · rw [identity_step h]
    exact hacc.snoc a

theorem OnItsWay.snoc {self : Identity} (h : OnItsWay s₀ as self dest dir nonce p) (a : Action) :
    OnItsWay s₀ (as++[a]) self dest dir nonce p := by
  rcases h with h | ⟨y,hy,hlt,hacc,hp⟩
  · exact .inl h
  · exact .inr ⟨y,hy,hlt,hacc.snoc a,hp⟩

theorem OnItsWay.reacts {i : ℕ} (hs : s.Honest) (htr : Trace Sys.step DrawsFresh s₀ as s)
    (hd : Delivered s i p t) (hp : OnItsWay s₀ as (s.identity u) dest dir nonce p)
    (hq : q ∈ (s.handle p).sent) :
    OnItsWay s₀ (as++[.deliver i]) (s.identity u) dest dir nonce q := by
  rcases hp with ⟨v,hv,rfl⟩ | ⟨y,-,-,-,rfl⟩
  · rcases hs.sided.handle_cases hd.mem with ⟨hnil,-⟩ | ⟨q',hsent,-,hr⟩
    · simp [hnil] at hq
    · obtain rfl : q = q' := by simpa [hsent] using hq
      cases hr with
      | forward _ e hb he hlt =>
        have hve := hs.sided v hd.mem 0 dir e he
        exact .inl ⟨e.id,Direction.le_trans hv (Direction.le_of_lt hve),rfl⟩
      | accept _ hb hnear hn =>
        have hvu := (belongsInOwnSlot_iff.mp hb).2.1
        rw [s.node_id] at hvu
        have hid : (s.node v).selfIdentity.id = v := s.node_id v
        refine .inr ⟨(s.node v).selfIdentity,by rwa [hid],by rwa [hid],?_,rfl⟩
        rw [hid]
        refine ⟨as,i,[],s,t,rfl,htr,hd,hsent,?_⟩
        simpa [entry,hd.node] using hn
  · have hr := hs.sided.handle_reacts hd.mem hq
    cases hr

theorem OnItsWay.reply {i : ℕ} {reply : Reply} (ht : t.Honest) (h : s.step a = some t)
    (hu : u ∈ s.members) (hd : Delivered s i p t)
    (hp : OnItsWay s₀ as (s.identity u) dest dir rt.nonce p) (ha : Answers p u rt reply) :
    LinkedBetween s₀ (as++[a]) t u dest dir rt.nonce := by
  rcases hp with ⟨v,-,rfl⟩ | ⟨y,hy,hyu,hacc,rfl⟩
  · obtain ⟨-,-,f,hf,-⟩ := ha
    simp [Event.reply?] at hf
  · rw [identity_id] at hd hyu
    have hb : (s.node u).belongsInOwnSlot 0 dir.opposite y = true := by
      refine belongsInOwnSlot_iff.mpr ⟨by decide,?_,Nat.zero_le _⟩
      rwa [s.node_id,Direction.opposite_lt]
    obtain ⟨e,he,hle⟩ := entry_of_setLink hd hb
    have hu' : u ∈ t.members := by rwa [members_step h]
    have hlt := ht.sided u hu' _ _ e he
    refine ⟨⟨e,he,ht.entries u hu' _ _ e he,?_,by simpa using hlt⟩,y.id,hy,hyu,?_⟩
    · exact Direction.le_trans hy (by simpa using hle)
    · rw [identity_step h]
      exact hacc.snoc a

theorem LinkHistory.step (hl : LinkHistory s₀ as s) (hf : s.DrawsFresh a)
    (h : s.step a = some t) : LinkHistory s₀ (as++[a]) t where
  trace := hl.trace.snoc h hf
  honest := hl.honest.step h
  channels := hl.channels.step h
  packets := by
    refine pending_packets_step hl.honest.sided hf h hl.packets ?_ ?_ ?_
    · intro u rt p hp dest dir hreq
      rw [identity_step h]
      exact (hp dest dir hreq).snoc a
    · rintro u hu rt hrt i p q rfl hd hp hq dest dir hreq
      rw [identity_step h]
      exact (hp dest dir hreq).reacts hl.honest hl.trace hd hq
    · rintro u ca r ended new n₁ calls rfl hc hseg rt hrt dest dir hreq
      rw [identity_step h]
      refine .inl ⟨dest,Direction.le_refl,?_⟩
      rw [RoundTrip.packet,hreq]
      rfl
  replies := by
    refine pending_replies_step hl.channels h hl.replies ?_ ?_
    · intro u hu rt reply hr dest dir hreq
      exact (hr dest dir hreq).step hu (hl.honest.step h) h
    · intro u hu rt hrt i p reply hd ha dest dir hreq
      exact (hl.packets u hu rt hrt p (List.mem_of_getElem? hd.get) ha.nonce_eq dest dir hreq).reply
        (hl.honest.step h) h hu hd ha

theorem linkHistory_run (hs : s₀.Honest) (hr : s₀.Resting)
    (h : Trace Sys.step DrawsFresh s₀ as s) : LinkHistory s₀ as s := by
  refine h.history (P := LinkHistory s₀) ⟨.nil s₀,hs,hr.channelsInv,?_,?_⟩
    fun as s a t hl hf hstep => hl.step hf hstep
  · intro u hu rt hrt
    simp [hr.waits hu] at hrt
  · intro u hu rt hrt
    simp [hr.waits hu] at hrt

/-- One call through one step: it stays as it is, is dropped, or goes on with the end of one
of its round trips. -/
theorem call_step (h : s.step a = some t) {k : ℕ} {c : Call}
    (hk : (s.node u).calls[k]? = some c) :
    ∃ c', (t.node u).calls[k]? = some c' ∧ (c' = c ∨ c' = .cancelled ∨
      ∃ rt ∈ c.waits, ∃ result new, (s.node u).Ends rt result ∧ Resumes u rt result c new c') := by
  have hset : ∀ (k' : ℕ) (c₀ c' : Call), (s.node u).calls[k']? = some c₀ →
      ∃ c'', ((s.node u).calls.set k' c')[k]? = some c'' ∧
        (c'' = c ∨ k' = k ∧ c₀ = c ∧ c'' = c') := by
    intro k' c₀ c' hk'
    by_cases hkk : k' = k
    · subst hkk
      have hlt := (List.getElem?_eq_some_iff.mp hk).1
      exact ⟨c',List.getElem?_set_self hlt,.inr ⟨rfl,Option.some.inj (hk'.symm.trans hk),rfl⟩⟩
    · exact ⟨c,(List.getElem?_set_ne hkk).trans hk,.inl rfl⟩
  have happend : ∀ c', ((s.node u).calls++[c'])[k]? = some c := fun c' => by
    rw [List.getElem?_append_left (List.getElem?_eq_some_iff.mp hk).1,hk]
  rcases calls_step h u with hcalls | ⟨ca,r,ended,new,n₁,-,-,hseg⟩
  · exact ⟨c,hcalls ▸ hk,.inl rfl⟩
  · have hch := hseg.change
    generalize (t.node u).calls = calls at hch ⊢
    cases hch with
    | answer | single | refuse | join => exact ⟨c,happend _,.inl rfl⟩
    | wake k' i n₁ n₂ call rt result new call' hk' hi hr hres =>
      obtain ⟨c'',hc'',rfl | ⟨rfl,rfl,rfl⟩⟩ := hset k' call call' hk'
      · exact ⟨c'',hc'',.inl rfl⟩
      · rw [s.node_id] at hres
        exact ⟨c'',hc'',.inr (.inr ⟨rt,List.mem_of_getElem? hi,result,new,.inl hr,hres⟩)⟩
    | timeout k' i call rt call' hk' hi hres =>
      obtain ⟨c'',hc'',rfl | ⟨rfl,rfl,rfl⟩⟩ := hset k' call call' hk'
      · exact ⟨c'',hc'',.inl rfl⟩
      · rw [s.node_id] at hres
        exact ⟨c'',hc'',.inr (.inr ⟨rt,List.mem_of_getElem? hi,_,[],.inr rfl,hres⟩)⟩
    | cancel k' call hk' hw =>
      obtain ⟨c'',hc'',rfl | ⟨rfl,rfl,rfl⟩⟩ := hset k' call .cancelled hk'
      · exact ⟨c'',hc'',.inl rfl⟩
      · exact ⟨_,hc'',.inr (.inl rfl)⟩

def Settles (s₀ : Sys) (as : List Action) (s : Sys) (u dest : Identifier) (dir : Direction)
    (rt : RoundTrip) : LinkFuture → Prop
  | .waiting rt' => rt' = rt ∧ rt.request = .link dest dir 0
  | .finished (.ok _) => LinkedBetween s₀ as s u dest dir rt.nonce
  | .finished (.error _) => True

def QuerySettles (s₀ : Sys) (as : List Action) (s : Sys) (u : Identifier) (d : Direction) :
    Option Identity → Option RoundTrip → Option LinkFuture → Prop
  | some z, some rt, some f => Settles s₀ as s u z.id d.opposite rt f
  | none, none, none => True
  | _, _, _ => False

/-- A join of `u` that has sent its link requests `rt` and `rt'`, and what its success means. -/
def AwaitsLinks (s₀ : Sys) (as : List Action) (s : Sys) (u : Identifier) (d : Direction)
    (r : Identifier) (z : Option Identity) (rt : RoundTrip) (rt' : Option RoundTrip) : Call → Prop
  | .joinLink d' r' z' sl ql => d' = d ∧ r' = r ∧ z' = z ∧ Settles s₀ as s u r d rt sl ∧
    QuerySettles s₀ as s u d z rt' ql
  | .returned (.ok _) => LinkedBetween s₀ as s u r d rt.nonce ∧ ∀ e, z = some e →
    ∃ rt₂, rt' = some rt₂ ∧ LinkedBetween s₀ as s u e.id d.opposite rt₂.nonce
  | .returned (.error _) => True
  | .cancelled => True
  | _ => False

variable {d : Direction} {r : Identifier} {z : Option Identity} {rt' : Option RoundTrip}

theorem Settles.step {f : LinkFuture} (hf : Settles s₀ as s u dest dir rt f) (hu : u ∈ s.members)
    (ht : t.Honest) (h : s.step a = some t) : Settles s₀ (as++[a]) t u dest dir rt f := by
  rcases f with rt₁ | (e | v)
  · exact hf
  · trivial
  · exact LinkedBetween.step hf hu ht h

theorem QuerySettles.step {ql : Option LinkFuture} (hq : QuerySettles s₀ as s u d z rt' ql)
    (hu : u ∈ s.members) (ht : t.Honest) (h : s.step a = some t) :
    QuerySettles s₀ (as++[a]) t u d z rt' ql := by
  rcases z with _ | e <;> rcases rt' with _ | rt₂ <;> rcases ql with _ | f
  all_goals first
    | exact hq
    | exact Settles.step hq hu ht h

theorem AwaitsLinks.step {c : Call} (hc : AwaitsLinks s₀ as s u d r z rt rt' c) (hu : u ∈ s.members)
    (ht : t.Honest) (h : s.step a = some t) : AwaitsLinks s₀ (as++[a]) t u d r z rt rt' c := by
  cases c with
  | joinLink d' r' z' sl ql =>
    obtain ⟨hd,hr,hz,hsl,hql⟩ := hc
    exact ⟨hd,hr,hz,hsl.step hu ht h,hql.step hu ht h⟩
  | returned res =>
    cases res with
    | error e => trivial
    | ok o =>
      obtain ⟨hl,hq⟩ := hc
      refine ⟨hl.step hu ht h,fun e he => ?_⟩
      obtain ⟨rt₂,hrt,hl₂⟩ := hq e he
      exact ⟨rt₂,hrt,hl₂.step hu ht h⟩
  | _ => exact hc

theorem Settles.settle {f : LinkFuture} {rt₁ : RoundTrip} {result : Except Error Reply}
    (hf : Settles s₀ as s u dest dir rt f)
    (hres : ∀ reply, result = .ok reply → ∀ dest dir, rt₁.request = .link dest dir 0 →
      LinkedBetween s₀ as s u dest dir rt₁.nonce) :
    Settles s₀ as s u dest dir rt (f.settle rt₁ result) := by
  cases f with
  | finished res => exact hf
  | waiting rt₂ =>
    obtain ⟨rfl,hreq⟩ := hf
    simp only [LinkFuture.settle]
    split
    · rename_i he
      subst he
      cases result with
      | error e => trivial
      | ok reply => exact hres reply rfl dest dir hreq
    · exact ⟨rfl,hreq⟩

theorem awaitsLinks_settled {sl : LinkFuture} {ql : Option LinkFuture}
    (hsl : Settles s₀ as s u r d rt sl) (hql : QuerySettles s₀ as s u d z rt' ql) :
    AwaitsLinks s₀ as s u d r z rt rt' (.settled d r z sl ql) := by
  have hstay : AwaitsLinks s₀ as s u d r z rt rt' (.joinLink d r z sl ql) := ⟨rfl,rfl,rfl,hsl,hql⟩
  rcases sl with rt₁ | (e | v)
  · exact hstay
  · rcases ql with _ | rt₂ | res
    · trivial
    · exact hstay
    · trivial
  · rcases ql with _ | rt₂ | (e | w)
    · rcases z with _ | e <;> rcases rt' with _ | rt₂
      · exact ⟨hsl,by simp⟩
      · exact hql.elim
      · exact hql.elim
      · exact hql.elim
    · exact hstay
    · trivial
    · rcases z with _ | e <;> rcases rt' with _ | rt₂
      · exact hql.elim
      · exact hql.elim
      · exact hql.elim
      · refine ⟨hsl,?_⟩
        rintro _ ⟨rfl⟩
        exact ⟨rt₂,rfl,hql⟩

theorem AwaitsLinks.resumes {c c' : Call} {rt₁ : RoundTrip} {result : Except Error Reply}
    {new : List RoundTrip} (hc : AwaitsLinks s₀ as s u d r z rt rt' c)
    (hr : Resumes u rt₁ result c new c')
    (hres : ∀ reply, result = .ok reply → ∀ dest dir, rt₁.request = .link dest dir 0 →
      LinkedBetween s₀ as s u dest dir rt₁.nonce) : AwaitsLinks s₀ as s u d r z rt rt' c' := by
  cases hr with
  | link d' r' z' sl ql =>
    obtain ⟨rfl,rfl,rfl,hsl,hql⟩ := hc
    refine awaitsLinks_settled (hsl.settle hres) ?_
    rcases z' with _ | e <;> rcases rt' with _ | rt₂ <;> rcases ql with _ | f
    all_goals first
      | exact hql
      | exact Settles.settle hql hres
  | _ => exact hc.elim

/-- In the run `bs` from `m` the neighbour query of call `k` of `u`, a join whose search in
direction `d` had found `r`, was answered by `res`; the join then sent its link requests. -/
def QueryAnswered (m : Sys) (bs : List Action) (u : Identifier) (k : ℕ) (d : Direction)
    (r : Identifier) (query : RoundTrip) (res : NeighborRes) (rt : RoundTrip)
    (rt' : Option RoundTrip) : Prop :=
  ∃ pre a post m₁ m₂, bs = pre++a::post ∧ Trace Sys.step DrawsFresh m pre m₁ ∧
    m₁.step a = some m₂ ∧ (m₁.node u).calls[k]? = some (.joinNeighbor d r query) ∧
    (m₁.node u).received query = some (.ok (.neighbor res)) ∧
    (m₂.node u).calls[k]? =
      some (.joinLink d r res.neighbor (.waiting rt) (rt'.map LinkFuture.waiting))

theorem QueryAnswered.snoc {m : Sys} {bs : List Action} {k : ℕ} {query : RoundTrip}
    {res : NeighborRes} (h : QueryAnswered m bs u k d r query res rt rt') (a : Action) :
    QueryAnswered m (bs++[a]) u k d r query res rt rt' := by
  obtain ⟨pre,b,post,m₁,m₂,rfl,hh⟩ := h
  exact ⟨pre,b,post++[a],m₁,m₂,by simp,hh⟩

/-- How far call `k` of `u` has come since its search found `r` in direction `d`. -/
def JoinStage (s₀ : Sys) (as : List Action) (m : Sys) (bs : List Action) (u : Identifier) (k : ℕ)
    (d : Direction) (r : Identifier) (query : RoundTrip) (s : Sys) (c : Call) : Prop :=
  c = .joinNeighbor d r query ∨
  (∃ res rt rt', QueryAnswered m bs u k d r query res rt rt' ∧
    AwaitsLinks s₀ (as++bs) s u d r res.neighbor rt rt' c) ∨
  c = .cancelled ∨ ∃ e, c = .returned (.error e)

variable {m : Sys} {bs : List Action} {k : ℕ} {query : RoundTrip}

theorem LinkHistory.ends (hl : LinkHistory s₀ as s) (hu : u ∈ s.members) {c : Call}
    (hk : (s.node u).calls[k]? = some c) (hm : rt ∈ c.waits) {result : Except Error Reply}
    (he : (s.node u).Ends rt result) (reply : Reply) (hr : result = .ok reply) (dest : Identifier)
    (dir : Direction) (hreq : rt.request = .link dest dir 0) :
    LinkedBetween s₀ as s u dest dir rt.nonce := by
  subst hr
  rcases he with he | he
  · exact hl.replies u hu rt (mem_waits.mpr ⟨c,List.mem_of_getElem? hk,hm⟩) reply
      (received_ok he).1 dest dir hreq
  · simp at he

theorem JoinStage.step {c : Call} (hl : LinkHistory s₀ (as++bs) s)
    (htr : Trace Sys.step DrawsFresh m bs s) (hu : u ∈ s.members)
    (hk : (s.node u).calls[k]? = some c) (hc : JoinStage s₀ as m bs u k d r query s c)
    (h : s.step a = some t) :
    ∃ c', (t.node u).calls[k]? = some c' ∧ JoinStage s₀ as m (bs++[a]) u k d r query t c' := by
  have ht := hl.honest.step h
  obtain ⟨c',hk',hstep⟩ := call_step h hk
  refine ⟨c',hk',?_⟩
  rcases hstep with rfl | rfl | ⟨rt₁,hm,result,new,hend,hres⟩
  · rcases hc with hc | ⟨res,rt,rt',hq,hun⟩ | hc
    · exact .inl hc
    · refine .inr (.inl ⟨res,rt,rt',hq.snoc a,?_⟩)
      rw [← List.append_assoc]
      exact hun.step hu ht h
    · exact .inr (.inr hc)
  · exact .inr (.inr (.inl rfl))
  · rcases hc with rfl | ⟨res,rt,rt',hq,hun⟩ | rfl | ⟨e,rfl⟩
    · obtain rfl : rt₁ = query := by simpa [Call.waits] using hm
      have hanswer : ∀ (res : NeighborRes) (rt : RoundTrip) (rt' : Option RoundTrip),
          result = .ok (.neighbor res) →
          c' = .joinLink d r res.neighbor (.waiting rt) (rt'.map LinkFuture.waiting) →
          QueryAnswered m (bs++[a]) u k d r rt₁ res rt rt' := by
        intro res rt rt' hr hc'
        subst hr
        rcases hend with hrec | he
        · exact ⟨bs,a,[],s,t,rfl,htr,h,hk,hrec,hc' ▸ hk'⟩
        · simp at he
      cases hres with
      | neighborFailed => exact .inr (.inr (.inr ⟨_,rfl⟩))
      | neighborMistyped => exact .inr (.inr (.inr ⟨_,rfl⟩))
      | linkBoth _ _ _ res q nonce₁ nonce₂ rx₁ rx₂ hr hq =>
        refine .inr (.inl ⟨res,_,some ⟨.link q.id d.opposite 0,nonce₂,rx₂⟩,
          hanswer res _ _ hr (by rw [hq]; rfl),?_⟩)
        rw [hq]
        exact ⟨rfl,rfl,rfl,⟨rfl,rfl⟩,rfl,rfl⟩
      | linkOne _ _ _ res nonce rx hr hq =>
        refine .inr (.inl ⟨res,_,none,hanswer res _ _ hr (by rw [hq]; rfl),?_⟩)
        rw [hq]
        exact ⟨rfl,rfl,rfl,⟨rfl,rfl⟩,trivial⟩
    · refine .inr (.inl ⟨res,rt,rt',hq.snoc a,?_⟩)
      rw [← List.append_assoc]
      exact (hun.resumes hres (hl.ends hu hk hm hend)).step hu ht h
    · simp [Call.waits] at hm
    · simp [Call.waits] at hm

/-- A join that returns `Ok` is linked, at its return and ever after: when its search had
found `r` in direction `d`, the node's slot on the other side holds a node between `r` and
itself, and when the neighbour query then named a node, its slot on side `d` holds a node
between itself and that one. Each request was accepted by a node in the same range, which
then held the joining node in its own slot. Other calls, losses and delays are arbitrary. -/
theorem joined_is_linked (hs : s₀.Honest) (hr : s₀.Resting) (hu : u ∈ s₀.members)
    (h : Trace Sys.step DrawsFresh s₀ as m)
    (hm : (m.node u).calls[k]? = some (.joinNeighbor d r query))
    (h' : Trace Sys.step DrawsFresh m bs t)
    (ht : (t.node u).calls[k]? = some (.returned (.ok .joined))) :
    ∃ res rt rt', QueryAnswered m bs u k d r query res rt rt' ∧
      LinkedBetween s₀ (as++bs) t u r d rt.nonce ∧
      ∀ z, res.neighbor = some z →
        ∃ rt₂, rt' = some rt₂ ∧ LinkedBetween s₀ (as++bs) t u z.id d.opposite rt₂.nonce := by
  have hinv : LinkHistory s₀ (as++bs) t ∧ Trace Sys.step DrawsFresh m bs t ∧ u ∈ t.members ∧
      ∃ c, (t.node u).calls[k]? = some c ∧ JoinStage s₀ as m bs u k d r query t c := by
    refine h'.history (P := fun bs t => LinkHistory s₀ (as++bs) t ∧
      Trace Sys.step DrawsFresh m bs t ∧ u ∈ t.members ∧
      ∃ c, (t.node u).calls[k]? = some c ∧ JoinStage s₀ as m bs u k d r query t c) ?_ ?_
    · have hmem : m.members = s₀.members :=
        h.invariant (P := fun t => t.members = s₀.members) rfl
          fun s a t hi _ hstep => (members_step hstep).trans hi
      refine ⟨by simpa using linkHistory_run hs hr h,.nil m,by rwa [hmem],_,hm,.inl rfl⟩
    · rintro bs s a t ⟨hl,htr,hmem,c,hk,hc⟩ hf hstep
      refine ⟨?_,htr.snoc hstep hf,by rwa [members_step hstep],hc.step hl htr hmem hk hstep⟩
      rw [← List.append_assoc]
      exact hl.step hf hstep
  obtain ⟨-,-,-,c,hk,hc⟩ := hinv
  obtain rfl : c = .returned (.ok .joined) := Option.some.inj (hk.symm.trans ht)
  rcases hc with hc | ⟨res,rt,rt',hq,hl,hz⟩ | hc | ⟨e,he⟩
  · simp at hc
  · exact ⟨res,rt,rt',hq,hl,hz⟩
  · simp at hc
  · simp at he

/-- Node 5 joins between nodes 1 and 9, while a request of node 9 is lost. -/
theorem joined_is_linked_between_one_and_nine :
    ∃ (m t : Sys) (query : RoundTrip),
      (m.node (.ofByte 5)).calls[0]? = some (.joinNeighbor .right (.ofByte 1) query) ∧
      (t.node (.ofByte 5)).calls[0]? = some (.returned (.ok .joined)) ∧
      ∃ e, t.entry (.ofByte 5) 0 .left = some e ∧ Direction.right.le (.ofByte 1) e.id ∧
        Direction.right.lt e.id (.ofByte 5) := by
  let ok : Sys → Action → Bool := fun s a => decide (s.DrawsFresh a)
  let query : RoundTrip := ⟨.neighbor (.ofByte 1) .right 0,⟨2⟩,1⟩
  have hrun : (runWhile Sys.step ok (row [.ofByte 1,.ofByte 9] [.ofByte 5])
      [.call (.ofByte 9) (.getMaxLevel (.ofByte 1) ⟨30⟩),.lose 0,
        .call (.ofByte 5) (.joinStage1LinkLevel0 (.ofByte 1) 0 ⟨1⟩),.deliver 0,.deliver 0,
        .call (.ofByte 5) (.wake 0 0 ⟨2⟩ ⟨31⟩)]).any (fun m =>
      decide ((m.node (.ofByte 5)).calls[0]? = some (.joinNeighbor .right (.ofByte 1) query)) &&
      (runWhile Sys.step ok m
        [.deliver 0,.deliver 0,.call (.ofByte 5) (.wake 0 0 ⟨3⟩ ⟨4⟩),.deliver 0,.deliver 0,
          .deliver 0,.deliver 0,.call (.ofByte 5) (.wake 0 0 ⟨32⟩ ⟨33⟩),
          .call (.ofByte 5) (.wake 0 0 ⟨34⟩ ⟨35⟩)]).any fun t =>
        decide ((t.node (.ofByte 5)).calls[0]? = some (.returned (.ok .joined)))) = true := by
    decide +kernel
  obtain ⟨m,hm,hrest⟩ := (Option.any_eq_true _ _).mp hrun
  obtain ⟨hcall,hrest⟩ := (Bool.and_eq_true _ _).mp hrest
  obtain ⟨t,ht,hret⟩ := (Option.any_eq_true _ _).mp hrest
  have hcall := of_decide_eq_true hcall
  have hret := of_decide_eq_true hret
  obtain ⟨res,rt,rt',-,⟨⟨e,he,-,hle,hlt⟩,-⟩,-⟩ := joined_is_linked (honest_row _ _)
    (resting_row _ _) (by decide) ((trace_of_runWhile hm).mono fun _ _ h => of_decide_eq_true h)
    hcall ((trace_of_runWhile ht).mono fun _ _ h => of_decide_eq_true h) hret
  exact ⟨m,t,query,hcall,hret,e,he,hle,hlt⟩

end Sys

end SkipGraph
