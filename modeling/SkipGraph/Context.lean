import SkipGraph.Transition
import Mathlib.Data.List.Rotate

/-!
# The irrevocable context

Contexts form trees: a child keeps its parent, inherits the deadline and holds a child token
of the parent's token. The contexts themselves never change; what changes is the state of the
tokens and the clock. The tokens are those of the async runtime, taken as a parameter.
-/

namespace SkipGraph

open Transition

variable {σ τ α : Type}

/-- The runtime's cancellation tokens; `σ` is the state that all of them share. -/
structure CancellationTokens (σ τ : Type) where
  new : σ → σ × τ
  childToken : σ → τ → σ × τ
  cancel : σ → τ → σ
  isCancelled : σ → τ → Bool

/-- What the tokens are documented to do. `derived s a b` says that `b` is `a` or was derived
from it through child tokens. A token is cancelled with every token that it was derived from,
and cancelling it has no effect on the others. -/
structure CancellationTokens.Documented (T : CancellationTokens σ τ)
    (derived : σ → τ → τ → Prop) : Prop where
  made : ∀ {s a b}, derived s a b → derived s a a ∧ derived s b b
  new_fresh : ∀ s, ¬ derived s (T.new s).2 (T.new s).2
  new_derived : ∀ {s a b}, derived (T.new s).1 a b ↔
    derived s a b ∨ (a = (T.new s).2 ∧ b = (T.new s).2)
  new_live : ∀ s, T.isCancelled (T.new s).1 (T.new s).2 = false
  new_other : ∀ {s a}, derived s a a → T.isCancelled (T.new s).1 a = T.isCancelled s a
  child_fresh : ∀ s p, ¬ derived s (T.childToken s p).2 (T.childToken s p).2
  child_derived : ∀ {s p a b}, derived s p p → (derived (T.childToken s p).1 a b ↔
    derived s a b ∨ (b = (T.childToken s p).2 ∧ (a = (T.childToken s p).2 ∨ derived s a p)))
  child_state : ∀ {s p}, derived s p p →
    T.isCancelled (T.childToken s p).1 (T.childToken s p).2 = T.isCancelled s p
  child_other : ∀ {s p a}, derived s p p → derived s a a →
    T.isCancelled (T.childToken s p).1 a = T.isCancelled s a
  cancel_derived : ∀ {s p a b}, derived (T.cancel s p) a b ↔ derived s a b
  cancel_state : ∀ {s p a}, derived s p p → derived s a a →
    (T.isCancelled (T.cancel s p) a = true ↔ T.isCancelled s a = true ∨ derived s p a)

/-- Tokens numbered in the order in which they are made, each with the set of those above it. -/
structure TokenTree where
  count : ℕ
  above : ℕ → ℕ → Bool
  cancelled : ℕ → Bool

namespace TokenTree

def derived (s : TokenTree) (a b : ℕ) : Prop := b < s.count ∧ (a = b ∨ (a < b ∧ s.above b a))

def tokens : CancellationTokens TokenTree ℕ where
  new s := (⟨s.count+1,fun b a => if b = s.count then false else s.above b a,
    fun b => if b = s.count then false else s.cancelled b⟩,s.count)
  childToken s p := (⟨s.count+1,fun b a => if b = s.count then
      decide (a = p) || (decide (a < p) && s.above p a) else s.above b a,
    fun b => if b = s.count then s.cancelled p else s.cancelled b⟩,s.count)
  cancel s p := ⟨s.count,s.above,fun b =>
    s.cancelled b || (decide (p = b) || (decide (p < b) && s.above b p))⟩
  isCancelled s a := s.cancelled a

theorem documented : tokens.Documented derived where
  made := by grind [derived]
  new_fresh := by grind [derived,tokens]
  new_derived := by grind [derived,tokens]
  new_live := by simp [tokens]
  new_other h := by simp [tokens,Nat.ne_of_lt h.1]
  child_fresh := by grind [derived,tokens]
  child_derived := by grind [derived,tokens]
  child_state := by simp [tokens]
  child_other _ h := by simp [tokens,Nat.ne_of_lt h.1]
  cancel_derived := by grind [derived,tokens]
  cancel_state _ h := by simp [tokens,derived,h.1]

end TokenTree

/-- A context with or without a parent. A deadline is a reading of the clock. -/
inductive IrrevocableContext (τ : Type)
  | root (token : τ) (deadline : Option ℕ)
  | under (token : τ) (deadline : Option ℕ) (parent : IrrevocableContext τ)
  deriving DecidableEq

namespace IrrevocableContext

def token : IrrevocableContext τ → τ
  | root token _ => token
  | under token _ _ => token

def deadline : IrrevocableContext τ → Option ℕ
  | root _ deadline => deadline
  | under _ deadline _ => deadline

/-- The context, its parent, and so on up to the root. -/
def lineage : IrrevocableContext τ → List (IrrevocableContext τ)
  | root token deadline => [root token deadline]
  | under token deadline parent => under token deadline parent::parent.lineage

variable (T : CancellationTokens σ τ)

def new (s : σ) : σ × IrrevocableContext τ := ((T.new s).1,root (T.new s).2 none)

def withTimeout (s : σ) (now timeout : ℕ) : σ × IrrevocableContext τ :=
  ((T.new s).1,root (T.new s).2 (some (now+timeout)))

def child (self : IrrevocableContext τ) (s : σ) : σ × IrrevocableContext τ :=
  ((T.childToken s self.token).1,under (T.childToken s self.token).2 self.deadline self)

def cancel (self : IrrevocableContext τ) (s : σ) : σ := T.cancel s self.token

def isCancelled (self : IrrevocableContext τ) (s : σ) : Bool := T.isCancelled s self.token

def isDeadlineExceeded (self : IrrevocableContext τ) (now : ℕ) : Bool :=
  self.deadline.any fun d => decide (d ≤ now)

def err (self : IrrevocableContext τ) (s : σ) (now : ℕ) : Option String :=
  if self.isCancelled T s then some "context cancelled"
  else if self.isDeadlineExceeded now then some "context deadline exceeded"
  else none

def withCancel (self : IrrevocableContext τ) (s : σ) : σ × IrrevocableContext τ × (σ → σ) :=
  let r := self.child T s
  (r.1,r.2,fun s => T.cancel s r.2.token)

/-- The message of the panic that ends the program. -/
def throwIrrecoverable : IrrevocableContext τ → String → String
  | under _ _ parent, err => parent.throwIrrecoverable err
  | root _ _, err => s!"irrecoverable error: {err}"

/-- What one poll of `run` finds: the tokens and the clock, the result of the future if it is
ready, whether the runtime's sleep of a given duration has ended, and the branch at which
`select!` starts. -/
structure Poll (σ α : Type) where
  tokens : σ
  now : ℕ
  ready : Option (Except String α)
  slept : ℕ → Bool
  start : ℕ

/-- What `sleep` is documented to do when it is called at `now` or later: it lasts at least as
long as asked. It may last longer. -/
def Poll.Documented (now : ℕ) (p : Poll σ α) : Prop :=
  ∀ duration, p.slept duration = true → now+duration ≤ p.now

/-- `select!` goes round the branches from a random one on and takes the first that is ready. -/
def select (branches : List (Option α)) (start : ℕ) : Option α :=
  (branches.rotate start).findSome? id

/-- One poll; a context with a deadline sleeps for the time remaining. -/
def poll (self : IrrevocableContext τ) (remaining : Option ℕ) (p : Poll σ α) :
    Option (Except String α) :=
  let cancelled := if self.isCancelled T p.tokens then some (.error "context cancelled") else none
  match remaining with
  | some remaining =>
    select [p.ready,if p.slept remaining then some (.error "context deadline exceeded") else none,
      cancelled] p.start
  | none => select [p.ready,cancelled] p.start

/-- `run`, begun at `now`: what it has returned after the given polls, if anything. The clock
is read again, at `now'`, for the remaining time. -/
def run (self : IrrevocableContext τ) (s : σ) (now now' : ℕ) (polls : List (Poll σ α)) :
    Option (Except String α) :=
  match self.err T s now with
  | some e => some (.error e)
  | none => polls.findSome? (self.poll T (self.deadline.map fun d => d-now'))

/-- `run`, with an error turned into the panic's message. -/
def runOrThrow (self : IrrevocableContext τ) (s : σ) (now now' : ℕ) (polls : List (Poll σ α)) :
    Option (Except String α) :=
  (self.run T s now now' polls).map fun r => r.mapError self.throwIrrecoverable

end IrrevocableContext

/-- The contexts made so far; `asked` records those on which `cancel` was called. -/
structure Runtime (σ τ : Type) where
  tokens : σ
  now : ℕ
  contexts : List (IrrevocableContext τ)
  asked : List (IrrevocableContext τ)

/-- What a program can do with its contexts. The function that `with_cancel` returns is one
more way to cancel. -/
inductive ContextAction
  | new
  | withTimeout (timeout : ℕ)
  | child (i : ℕ)
  | withCancel (i : ℕ)
  | cancel (i : ℕ)
  | elapse (duration : ℕ)
  deriving DecidableEq, Repr

namespace Runtime

def add (w : Runtime σ τ) (r : σ × IrrevocableContext τ) : Runtime σ τ :=
  { w with tokens := r.1, contexts := w.contexts++[r.2] }

def step (T : CancellationTokens σ τ) (w : Runtime σ τ) : ContextAction → Option (Runtime σ τ)
  | .new => some (w.add (IrrevocableContext.new T w.tokens))
  | .withTimeout timeout => some (w.add (IrrevocableContext.withTimeout T w.tokens w.now timeout))
  | .child i => w.contexts[i]?.map fun c => w.add (c.child T w.tokens)
  | .withCancel i => w.contexts[i]?.map fun c =>
      w.add ((c.withCancel T w.tokens).1,(c.withCancel T w.tokens).2.1)
  | .cancel i => w.contexts[i]?.map fun c =>
      { w with tokens := c.cancel T w.tokens, asked := c::w.asked }
  | .elapse duration => some { w with now := w.now+duration }

def start (s : σ) (now : ℕ) : Runtime σ τ := ⟨s,now,[],[]⟩

variable {T : CancellationTokens σ τ} {derived : σ → τ → τ → Prop} {w t : Runtime σ τ}
  {a : ContextAction} {b c : IrrevocableContext τ}

theorem step_cases (h : w.step T a = some t) :
    (∃ deadline, t = w.add ((T.new w.tokens).1,.root (T.new w.tokens).2 deadline)) ∨
    (∃ c ∈ w.contexts, t = w.add (c.child T w.tokens)) ∨
    (∃ c ∈ w.contexts, t = { w with tokens := c.cancel T w.tokens, asked := c::w.asked }) ∨
    ∃ duration, t = { w with now := w.now+duration } := by
  cases a with
  | new => exact .inl ⟨none,(Option.some.inj h).symm⟩
  | withTimeout timeout => exact .inl ⟨some (w.now+timeout),(Option.some.inj h).symm⟩
  | child i =>
    obtain ⟨c,hc,rfl⟩ := Option.map_eq_some_iff.mp h
    exact .inr (.inl ⟨c,List.mem_of_getElem? hc,rfl⟩)
  | withCancel i =>
    obtain ⟨c,hc,rfl⟩ := Option.map_eq_some_iff.mp h
    exact .inr (.inl ⟨c,List.mem_of_getElem? hc,rfl⟩)
  | cancel i =>
    obtain ⟨c,hc,rfl⟩ := Option.map_eq_some_iff.mp h
    exact .inr (.inr (.inl ⟨c,List.mem_of_getElem? hc,rfl⟩))
  | elapse duration => exact .inr (.inr (.inr ⟨duration,(Option.some.inj h).symm⟩))

/-- The trees of contexts and of tokens have the same shape, and a context is cancelled when
`cancel` was called on one of its lineage. -/
structure Grown (T : CancellationTokens σ τ) (derived : σ → τ → τ → Prop) (w : Runtime σ τ) :
    Prop where
  made : ∀ c ∈ w.contexts, derived w.tokens c.token c.token
  lineage : ∀ c ∈ w.contexts, ∀ b ∈ c.lineage, b ∈ w.contexts ∧ b.deadline = c.deadline
  derived_iff : ∀ b ∈ w.contexts, ∀ c ∈ w.contexts,
    derived w.tokens b.token c.token ↔ b ∈ c.lineage
  asked : ∀ c ∈ w.asked, c ∈ w.contexts
  cancelled : ∀ c ∈ w.contexts,
    c.isCancelled T w.tokens = true ↔ ∃ b ∈ w.asked, b ∈ c.lineage

theorem grown_start {s : σ} {now : ℕ} : (start s now : Runtime σ τ).Grown T derived := by
  constructor <;> simp [start]

theorem self_mem_lineage (c : IrrevocableContext τ) : c ∈ c.lineage := by
  cases c <;> simp [IrrevocableContext.lineage]

theorem Grown.add (hg : w.Grown T derived) {s : σ} (hnew : ¬ derived w.tokens c.token c.token)
    (hmade : derived s c.token c.token)
    (hkeep : ∀ a b, derived w.tokens a a → derived w.tokens b b →
      (derived s a b ↔ derived w.tokens a b))
    (hdown : ∀ b ∈ w.contexts, derived s b.token c.token ↔ b ∈ c.lineage)
    (hup : ∀ b ∈ w.contexts, ¬ derived s c.token b.token)
    (hline : ∀ b ∈ c.lineage, b = c ∨ b ∈ w.contexts)
    (hdead : ∀ b ∈ c.lineage, b.deadline = c.deadline)
    (hstate : ∀ b ∈ w.contexts, T.isCancelled s b.token = T.isCancelled w.tokens b.token)
    (hcan : T.isCancelled s c.token = true ↔ ∃ b ∈ w.asked, b ∈ c.lineage) :
    (w.add (s,c)).Grown T derived := by
  have hmem : ∀ b, b ∈ (w.add (s,c)).contexts ↔ b ∈ w.contexts ∨ b = c := by simp [Runtime.add]
  have hfresh : c ∉ w.contexts := fun h => hnew (hg.made c h)
  refine ⟨fun b hb => ?_,fun b hb a ha => ?_,fun a ha b hb => ?_,fun b hb => ?_,fun b hb => ?_⟩
  · rcases (hmem b).mp hb with hb | rfl
    · have hbm := hg.made b hb
      exact (hkeep _ _ hbm hbm).mpr hbm
    · exact hmade
  · rcases (hmem b).mp hb with hb | rfl
    · obtain ⟨ha,hd⟩ := hg.lineage b hb a ha
      exact ⟨(hmem a).mpr (.inl ha),hd⟩
    · exact ⟨(hmem a).mpr (hline a ha).symm,hdead a ha⟩
  · rcases (hmem a).mp ha with ha' | rfl
    · rcases (hmem b).mp hb with hb' | rfl
      · exact (hkeep _ _ (hg.made a ha') (hg.made b hb')).trans (hg.derived_iff a ha' b hb')
      · exact hdown a ha'
    · rcases (hmem b).mp hb with hb' | rfl
      · exact iff_of_false (hup b hb') fun h => hfresh (hg.lineage b hb' a h).1
      · exact iff_of_true hmade (self_mem_lineage b)
  · exact (hmem b).mpr (.inl (hg.asked b hb))
  · rcases (hmem b).mp hb with hb | rfl
    · rw [IrrevocableContext.isCancelled]
      simp only [Runtime.add]
      rw [hstate b hb]
      exact hg.cancelled b hb
    · exact hcan

theorem Grown.addRoot (hT : T.Documented derived) (hg : w.Grown T derived)
    (deadline : Option ℕ) :
    (w.add ((T.new w.tokens).1,.root (T.new w.tokens).2 deadline)).Grown T derived := by
  have hfresh := hT.new_fresh w.tokens
  have hne : ∀ b ∈ w.contexts, b.token ≠ (T.new w.tokens).2 := fun b hb he =>
    hfresh (he ▸ hg.made b hb)
  have hnotmem : ∀ b ∈ w.contexts, b ≠ .root (T.new w.tokens).2 deadline := fun b hb he =>
    hne b hb (by rw [he]; rfl)
  refine hg.add hfresh ?_ ?_ ?_ ?_ ?_ ?_ ?_ ?_
  · exact hT.new_derived.mpr (.inr ⟨rfl,rfl⟩)
  · intro a b ha _
    rw [hT.new_derived]
    exact or_iff_left fun h => hfresh (h.1 ▸ ha)
  · intro b hb
    rw [hT.new_derived]
    refine iff_of_false ?_ ?_
    · rintro (h | h)
      · exact hfresh (hT.made h).2
      · exact hne b hb h.1
    · simpa [IrrevocableContext.lineage] using hnotmem b hb
  · intro b hb h
    rcases hT.new_derived.mp h with h | h
    · exact hfresh (hT.made h).1
    · exact hne b hb h.2
  · simp [IrrevocableContext.lineage]
  · simp [IrrevocableContext.lineage]
  · exact fun b hb => hT.new_other (hg.made b hb)
  · refine iff_of_false (by simp [IrrevocableContext.token,hT.new_live]) ?_
    rintro ⟨b,hb,hbl⟩
    exact hnotmem b (hg.asked b hb) (by simpa [IrrevocableContext.lineage] using hbl)

theorem Grown.addChild (hT : T.Documented derived) (hg : w.Grown T derived)
    (hc : c ∈ w.contexts) : (w.add (c.child T w.tokens)).Grown T derived := by
  have hcm := hg.made c hc
  have hfresh := hT.child_fresh w.tokens c.token
  have hne : ∀ b ∈ w.contexts, b.token ≠ (T.childToken w.tokens c.token).2 := fun b hb he =>
    hfresh (he ▸ hg.made b hb)
  have hline : ∀ b ∈ w.contexts, b ∈ (c.child T w.tokens).2.lineage ↔ b ∈ c.lineage := by
    intro b hb
    simp only [IrrevocableContext.child,IrrevocableContext.lineage,List.mem_cons]
    refine or_iff_right fun he => hne b hb ?_
    rw [he]
    rfl
  refine hg.add hfresh ?_ ?_ ?_ ?_ ?_ ?_ ?_ ?_
  · exact (hT.child_derived hcm).mpr (.inr ⟨rfl,.inl rfl⟩)
  · intro a b _ hb
    rw [hT.child_derived hcm]
    exact or_iff_left fun h => hfresh (h.1 ▸ hb)
  · intro b hb
    refine Iff.trans ?_ (hline b hb).symm
    rw [← hg.derived_iff b hb c hc]
    refine (hT.child_derived hcm).trans ⟨?_,?_⟩
    · rintro (h | ⟨-,h | h⟩)
      · exact absurd (hT.made h).2 hfresh
      · exact absurd h (hne b hb)
      · exact h
    · exact fun h => .inr ⟨rfl,.inr h⟩
  · intro b hb h
    rcases (hT.child_derived hcm).mp h with h | h
    · exact hfresh (hT.made h).1
    · exact hne b hb h.1
  · intro b hb
    rcases List.mem_cons.mp hb with rfl | hb
    · exact .inl rfl
    · exact .inr (hg.lineage c hc b hb).1
  · intro b hb
    rcases List.mem_cons.mp hb with rfl | hb
    · rfl
    · exact (hg.lineage c hc b hb).2
  · exact fun b hb => hT.child_other hcm (hg.made b hb)
  · refine (iff_of_eq (congrArg (· = true) (hT.child_state hcm))).trans
      ((hg.cancelled c hc).trans ?_)
    exact exists_congr fun b => and_congr_right fun hb => (hline b (hg.asked b hb)).symm

theorem Grown.cancel (hT : T.Documented derived) (hg : w.Grown T derived) (hc : c ∈ w.contexts) :
    Grown T derived { w with tokens := c.cancel T w.tokens, asked := c::w.asked } where
  made b hb := hT.cancel_derived.mpr (hg.made b hb)
  lineage := hg.lineage
  derived_iff a ha b hb := hT.cancel_derived.trans (hg.derived_iff a ha b hb)
  asked b hb := by
    rcases List.mem_cons.mp hb with rfl | hb
    · exact hc
    · exact hg.asked b hb
  cancelled b hb := by
    have hst : b.isCancelled T (c.cancel T w.tokens) = true ↔
        b.isCancelled T w.tokens = true ∨ c ∈ b.lineage :=
      (hT.cancel_state (hg.made c hc) (hg.made b hb)).trans
        (or_congr_right (hg.derived_iff c hc b hb))
    rw [hst,hg.cancelled b hb]
    simp [or_comm]

theorem Grown.step (hT : T.Documented derived) (hg : w.Grown T derived)
    (h : w.step T a = some t) : t.Grown T derived := by
  obtain ⟨deadline,rfl⟩ | ⟨c,hc,rfl⟩ | ⟨c,hc,rfl⟩ | ⟨duration,rfl⟩ := step_cases h
  · exact hg.addRoot hT deadline
  · exact hg.addChild hT hc
  · exact hg.cancel hT hc
  · exact ⟨hg.made,hg.lineage,hg.derived_iff,hg.asked,hg.cancelled⟩

structure Before (w t : Runtime σ τ) : Prop where
  contexts : w.contexts ⊆ t.contexts
  asked : w.asked ⊆ t.asked
  now : w.now ≤ t.now

theorem before_step (h : w.step T a = some t) : w.Before t := by
  obtain ⟨deadline,rfl⟩ | ⟨c,-,rfl⟩ | ⟨c,-,rfl⟩ | ⟨duration,rfl⟩ := step_cases h
  · exact ⟨by simp [Runtime.add],fun _ h => h,Nat.le_refl _⟩
  · exact ⟨by simp [Runtime.add],fun _ h => h,Nat.le_refl _⟩
  · exact ⟨fun _ h => h,List.subset_cons_self _ _,Nat.le_refl _⟩
  · exact ⟨fun _ h => h,fun _ h => h,Nat.le_add_right _ _⟩

theorem before_trace {as : List ContextAction}
    (h : Trace (step T) (fun _ _ => True) w as t) : w.Before t := by
  induction h with
  | nil => exact ⟨fun _ h => h,fun _ h => h,Nat.le_refl _⟩
  | cons hs _ _ ih =>
    have hb := before_step hs
    exact ⟨fun _ h => ih.contexts (hb.contexts h),fun _ h => ih.asked (hb.asked h),
      Nat.le_trans hb.now ih.now⟩

theorem err_eq_none {s : σ} {now : ℕ} : c.err T s now = none ↔
    c.isCancelled T s = false ∧ c.isDeadlineExceeded now = false := by
  cases hc : c.isCancelled T s <;> cases hd : c.isDeadlineExceeded now <;>
    simp [IrrevocableContext.err,hc,hd]

theorem isDeadlineExceeded_mono {now now' : ℕ} (h : now ≤ now')
    (hc : c.isDeadlineExceeded now = true) : c.isDeadlineExceeded now' = true := by
  unfold IrrevocableContext.isDeadlineExceeded at hc ⊢
  cases hd : c.deadline with
  | none => simp [hd] at hc
  | some d =>
    simp only [hd,Option.any_some,decide_eq_true_eq] at hc ⊢
    exact Nat.le_trans hc h

/-- In every run a context is cancelled exactly when `cancel` was called on it or on a context
above it, whether before or after it was made; its deadline is that of all contexts above it;
and once it is cancelled or expired it stays unusable. -/
theorem cancellation_reaches_exactly_descendants (hT : T.Documented derived) {s : σ} {now : ℕ}
    {as bs : List ContextAction} (hw : Trace (step T) (fun _ _ => True) (start s now) as w)
    (ht : Trace (step T) (fun _ _ => True) w bs t) (hc : c ∈ w.contexts) :
    (c.isCancelled T w.tokens = true ↔ ∃ b ∈ w.asked, b ∈ c.lineage) ∧
    (∀ b ∈ c.lineage, b ∈ w.contexts ∧ b.deadline = c.deadline) ∧ c ∈ t.contexts ∧
    (c.isCancelled T w.tokens = true → c.isCancelled T t.tokens = true) ∧
    (c.err T w.tokens w.now ≠ none → c.err T t.tokens t.now ≠ none) := by
  have hgw : w.Grown T derived := hw.invariant (P := Grown T derived) grown_start
    fun _ _ _ hg _ hs => hg.step hT hs
  have hgt : t.Grown T derived := ht.invariant (P := Grown T derived) hgw
    fun _ _ _ hg _ hs => hg.step hT hs
  have hb := before_trace ht
  have hcan : c.isCancelled T w.tokens = true → c.isCancelled T t.tokens = true := by
    rw [hgw.cancelled c hc,hgt.cancelled c (hb.contexts hc)]
    rintro ⟨b,hba,hbl⟩
    exact ⟨b,hb.asked hba,hbl⟩
  refine ⟨hgw.cancelled c hc,hgw.lineage c hc,hb.contexts hc,hcan,fun he hn => he ?_⟩
  obtain ⟨hn,hd⟩ := err_eq_none.mp hn
  refine err_eq_none.mpr ⟨?_,?_⟩
  · exact Bool.eq_false_iff.mpr fun h => Bool.eq_false_iff.mp hn (hcan h)
  · exact Bool.eq_false_iff.mpr fun h =>
      Bool.eq_false_iff.mp hd (isDeadlineExceeded_mono hb.now h)

/-- A root with a child; the root is cancelled, and a grandchild is made only then. -/
theorem cancellation_reaches_grandchild :
    ∃ w t : Runtime TokenTree ℕ, ∃ c : IrrevocableContext ℕ, c ∈ w.contexts ∧
      c.lineage.length = 3 ∧ c.isCancelled TokenTree.tokens t.tokens = true := by
  let init : Runtime TokenTree ℕ := start ⟨0,fun _ _ => false,fun _ => false⟩ 0
  obtain ⟨w,hw,hc⟩ := exists_trace_of_runWhile (step TokenTree.tokens) (fun _ _ => true) init
    [.withTimeout 5,.child 0,.cancel 0,.withCancel 1]
    (fun w => decide (w.contexts = [.root 0 (some 5),.under 1 (some 5) (.root 0 (some 5)),
        .under 2 (some 5) (.under 1 (some 5) (.root 0 (some 5)))]) &&
      decide (w.asked = [.root 0 (some 5)])) (by decide)
  obtain ⟨t,ht,-⟩ := exists_trace_of_runWhile (step TokenTree.tokens) (fun _ _ => true) w
    [.elapse 7] (fun _ => true) rfl
  simp only [Bool.and_eq_true,decide_eq_true_eq] at hc
  let c : IrrevocableContext ℕ := .under 2 (some 5) (.under 1 (some 5) (.root 0 (some 5)))
  have hcw : c ∈ w.contexts := by simp [hc.1,c]
  obtain ⟨hcan,-,-,hstay,-⟩ := cancellation_reaches_exactly_descendants TokenTree.documented
    (hw.mono fun _ _ _ => trivial) (ht.mono fun _ _ _ => trivial) hcw
  refine ⟨w,t,c,hcw,rfl,hstay (hcan.mpr ⟨.root 0 (some 5),by simp [hc.2],?_⟩)⟩
  simp [c,IrrevocableContext.lineage]

end Runtime

namespace IrrevocableContext

variable {T : CancellationTokens σ τ} {c : IrrevocableContext τ} {s : σ} {now now' : ℕ}

theorem throwIrrecoverable_eq (c : IrrevocableContext τ) (err : String) :
    c.throwIrrecoverable err = s!"irrecoverable error: {err}" := by
  induction c with
  | root => rfl
  | under _ _ _ ih => exact ih

theorem select_eq_none {branches : List (Option α)} {start : ℕ} :
    select branches start = none ↔ ∀ b ∈ branches, b = none := by
  simp [select,List.findSome?_eq_none_iff]

theorem mem_of_select {branches : List (Option α)} {start : ℕ} {r : α}
    (h : select branches start = some r) : some r ∈ branches := by
  obtain ⟨b,hb,hr⟩ := List.exists_of_findSome?_eq_some h
  rw [List.mem_rotate] at hb
  exact (show b = some r from hr) ▸ hb

/-- The future is not ready, the token is not cancelled and the sleep is not over. -/
structure Waits (T : CancellationTokens σ τ) (c : IrrevocableContext τ) (now' : ℕ)
    (p : Poll σ α) : Prop where
  ready : p.ready = none
  live : c.isCancelled T p.tokens = false
  asleep : ∀ d, c.deadline = some d → p.slept (d-now') = false

theorem poll_eq_none {p : Poll σ α} :
    c.poll T (c.deadline.map fun d => d-now') p = none ↔ c.Waits T now' p := by
  have hiff : c.Waits T now' p ↔ p.ready = none ∧ c.isCancelled T p.tokens = false ∧
      ∀ d, c.deadline = some d → p.slept (d-now') = false :=
    ⟨fun h => ⟨h.ready,h.live,h.asleep⟩,fun h => ⟨h.1,h.2.1,h.2.2⟩⟩
  rw [hiff]
  cases hd : c.deadline <;> cases hc : c.isCancelled T p.tokens <;>
    simp [poll,select_eq_none,hc]

theorem poll_eq_some {p : Poll σ α} (hp : p.Documented now') {r : Except String α}
    (h : c.poll T (c.deadline.map fun d => d-now') p = some r) :
    p.ready = some r ∨ (r = .error "context cancelled" ∧ c.isCancelled T p.tokens = true) ∨
      (r = .error "context deadline exceeded" ∧ c.isDeadlineExceeded p.now = true) := by
  have hcancelled : ∀ {b}, (if b = true then some (.error "context cancelled") else none) = some r →
      r = .error "context cancelled" ∧ b = true := by
    intro b hb
    split at hb
    · exact ⟨(Option.some.inj hb).symm,‹_›⟩
    · simp at hb
  cases hd : c.deadline with
  | none =>
    simp only [poll,hd,Option.map_none] at h
    have hm := mem_of_select h
    simp only [List.mem_cons,List.not_mem_nil,or_false] at hm
    rcases hm with hm | hm
    · exact .inl hm.symm
    · exact .inr (.inl (hcancelled hm.symm))
  | some d =>
    simp only [poll,hd,Option.map_some] at h
    have hm := mem_of_select h
    simp only [List.mem_cons,List.not_mem_nil,or_false] at hm
    rcases hm with hm | hm | hm
    · exact .inl hm.symm
    · split at hm
      · rename_i hslept
        have hlast := hp _ hslept
        have hle : d ≤ p.now := by omega
        exact .inr (.inr ⟨Option.some.inj hm,by simpa [isDeadlineExceeded,hd] using hle⟩)
      · simp at hm
    · exact .inr (.inl (hcancelled hm.symm))

/-- On a context that is cancelled or expired from the start, `run` returns that error and
never looks at the future. Otherwise it ends at the first poll that finds the future ready, the
token cancelled or the sleep over, and returns the result of the future or an error that is
true then. `run_or_throw` does the same and panics with the error, with one message at every
depth. -/
theorem run_ends_at_first_cause (c : IrrevocableContext τ) (s : σ) (now now' : ℕ)
    (polls : List (Poll σ α)) (hp : ∀ p ∈ polls, p.Documented now') :
    (match c.run T s now now' polls with
      | none => c.err T s now = none ∧ ∀ p ∈ polls, c.Waits T now' p
      | some r => (∃ e, c.err T s now = some e ∧ r = .error e) ∨
          (c.err T s now = none ∧ ∃ earlier p later, polls = earlier++p::later ∧
            (∀ q ∈ earlier, c.Waits T now' q) ∧ ¬ c.Waits T now' p ∧
            (p.ready = some r ∨
              (r = .error "context cancelled" ∧ c.isCancelled T p.tokens = true) ∨
              (r = .error "context deadline exceeded" ∧ c.isDeadlineExceeded p.now = true)))) ∧
    c.runOrThrow T s now now' polls = (c.run T s now now' polls).map fun r =>
      r.mapError fun e => s!"irrecoverable error: {e}" := by
  refine ⟨?_,?_⟩
  · rw [run]
    cases he : c.err T s now with
    | some e => exact .inl ⟨e,rfl,rfl⟩
    | none =>
      simp only
      split
      · rename_i hr
        exact ⟨trivial,fun p hpm => poll_eq_none.mp (List.findSome?_eq_none_iff.mp hr p hpm)⟩
      · rename_i r hr
        obtain ⟨earlier,p,later,rfl,hpr,hq⟩ := List.findSome?_eq_some_iff.mp hr
        refine .inr ⟨trivial,earlier,p,later,rfl,fun q hqm => poll_eq_none.mp (hq q hqm),
          fun hw => ?_,poll_eq_some (hp p (by simp)) hpr⟩
        rw [poll_eq_none.mpr hw] at hpr
        simp at hpr
  · have ht : c.throwIrrecoverable = fun e => s!"irrecoverable error: {e}" :=
      funext c.throwIrrecoverable_eq
    rw [runOrThrow,ht]

/-- A run with the deadline 5 and a sleep that lasts two units too long. It is not over at 6,
and at 9 both the sleep and the future are ready. -/
theorem run_ends_after_deadline :
    let s : TokenTree := ⟨1,fun _ _ => false,fun _ => false⟩
    let slept (now duration : ℕ) : Bool := decide (3+duration ≤ now)
    let polls : List (Poll TokenTree ℕ) :=
      [⟨s,6,none,slept 6,0⟩,⟨s,9,some (.ok 42),slept 9,1⟩]
    let c : IrrevocableContext ℕ := root 0 (some 5)
    c.run TokenTree.tokens s 0 1 polls = some (.error "context deadline exceeded") ∧
      ∃ p ∈ polls, ¬ c.Waits TokenTree.tokens 1 p ∧ c.isDeadlineExceeded p.now = true := by
  intro s slept polls c
  have hp : ∀ p ∈ polls, p.Documented 1 := by
    intro p hp duration h
    simp only [polls,List.mem_cons,List.not_mem_nil,or_false] at hp
    rcases hp with rfl | rfl <;> simp [slept] at h ⊢ <;> omega
  have hrun : c.run TokenTree.tokens s 0 1 polls = some (.error "context deadline exceeded") := rfl
  have h := (run_ends_at_first_cause (T := TokenTree.tokens) c s 0 1 polls hp).1
  rw [hrun] at h
  obtain ⟨e,he,-⟩ | ⟨-,earlier,p,later,hpolls,-,hnot,hr⟩ := h
  · have hnone : c.err TokenTree.tokens s 0 = none := rfl
    simp [hnone] at he
  · have hmem : p ∈ polls := by simp [hpolls]
    refine ⟨hrun,p,hmem,hnot,?_⟩
    simp only [polls,List.mem_cons,List.not_mem_nil,or_false] at hmem
    rcases hmem with rfl | rfl <;> simp_all

end IrrevocableContext

end SkipGraph
