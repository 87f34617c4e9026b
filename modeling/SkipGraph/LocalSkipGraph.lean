import SkipGraph.ClassNeighbors
import SkipGraph.OrderedSet
import SkipGraph.PrefixTree

/-!
# A skip graph built by hand

`LocalSkipGraph::new` draws identifiers and membership vectors, registers one node for each
with a shared hub and fills the lookup tables itself. Level 0 is a doubly linked list; at
every higher level each node is linked to the nearest node on its left that shares the
level's prefix, found by a scan that starts where the scan of the level below ended and is
given up at the first level without a match.
-/

namespace SkipGraph

open ClassNeighbors

/-- The identifiers drawn, in ascending order. -/
def randomSortedIdentifiers {n : ℕ} (draws : Fin n → Identifier) (i : Fin n) : Identifier :=
  ((List.ofFn draws).mergeSort fun a b => decide (a ≤ b)).get (i.cast (by simp))

/-- The vectors of the graph; `lts[i]` is the table that node `i` works with. -/
structure LocalSkipGraph (n : ℕ) where
  identifiers : Fin n → Identifier
  mvs : Fin n → MembershipVector
  addresses : Fin n → Address
  lts : Fin n → ArrayLookupTable

namespace LocalSkipGraph

variable {n : ℕ}

def node (g : LocalSkipGraph n) (i : Fin n) : BaseNode :=
  .new ⟨g.identifiers i,g.mvs i,g.lts i⟩ (g.addresses i)

/-- The identity under which node `i` is entered into tables. -/
def peer (g : LocalSkipGraph n) (i : Fin n) : Identity :=
  ⟨g.identifiers i,g.mvs i,⟨"localhost","0"⟩⟩

def updateEntry (g : LocalSkipGraph n) (i : Fin n) (identity : Identity) (level : ℕ)
    (direction : Direction) : Except Error (LocalSkipGraph n) :=
  match (g.lts i).updateEntry identity level direction with
  | (.ok _,lt) => .ok { g with lts := Function.update g.lts i lt }
  | (.error e,_) => .error e

/-- The pairs of neighbouring positions, `windows(2)`. -/
def windows (n : ℕ) : List (Fin n × Fin n) := (List.finRange n).zip (List.finRange n).tail

def linkLevelZero (g : LocalSkipGraph n) : Except Error (LocalSkipGraph n) :=
  (windows n).foldlM (fun g pair =>
    (g.updateEntry pair.1 (g.peer pair.2) 0 .right).bind fun g =>
      g.updateEntry pair.2 (g.peer pair.1) 0 .left) g

/-- The scan at one level: link node `i` to the first position with a long enough prefix. -/
def linkLeftward (g : LocalSkipGraph n) (i : Fin n) (level : ℕ) :
    List (Fin n) → Except Error (LocalSkipGraph n × Option (Fin n))
  | [] => .ok (g,none)
  | j::js =>
    if (g.mvs i).commonPrefixBit (g.mvs j) ≥ level then
      (g.updateEntry i (g.peer j) level .left).bind fun g =>
        (g.updateEntry j (g.peer i) level .right).map fun g => (g,some j)
    else g.linkLeftward i level js

/-- The levels of one node; each scan starts at the neighbour of the level below. -/
def linkLevels (g : LocalSkipGraph n) (i loopStart : Fin n) :
    List ℕ → Except Error (LocalSkipGraph n)
  | [] => .ok g
  | level::levels =>
    (g.linkLeftward i level (scan n (loopStart+1))).bind fun r =>
      match r.2 with
      | some j => r.1.linkLevels i j levels
      | none => .ok r.1

/-- Every node but the first; the scan at level 1 starts right before the node. -/
def linkHigherLevels (g : LocalSkipGraph n) : Except Error (LocalSkipGraph n) :=
  (windows n).foldlM (fun g pair =>
    g.linkLevels pair.2 pair.1 (List.range' 1 (lookupTableLevels-1))) g

/-- One network and one node for each identifier; a repeated identifier fails. -/
def register (g : LocalSkipGraph n) : Except Error NetworkHub :=
  (List.finRange n).foldlM (fun (h : NetworkHub) i =>
    h.addNode ⟨g.identifiers i,g.mvs i,.new⟩ (g.addresses i)) .new

def unlinked (draws : Fin n → Identifier) (mvs : Fin n → MembershipVector)
    (addresses : Fin n → Address) : LocalSkipGraph n :=
  ⟨randomSortedIdentifiers draws,mvs,addresses,fun _ => .new⟩

/-- The construction, for given draws. -/
def new (draws : Fin n → Identifier) (mvs : Fin n → MembershipVector)
    (addresses : Fin n → Address) : Except Error (LocalSkipGraph n) :=
  if n = 0 then .error (.transport "cannot create skip graph with 0 nodes")
  else (unlinked draws mvs addresses).register.bind fun _ =>
    (unlinked draws mvs addresses).linkLevelZero.bind linkHigherLevels

def entry (g : LocalSkipGraph n) (i : Fin n) (level : ℕ) (d : Direction) : Option Identity :=
  (g.lts i).entry level d

def Shares (mvs : Fin n → MembershipVector) (level : ℕ) (i j : Fin n) : Prop :=
  (mvs i).commonPrefixBit (mvs j) ≥ level

instance (mvs : Fin n → MembershipVector) (level : ℕ) : DecidableRel (Shares mvs level) :=
  fun i j => inferInstanceAs (Decidable ((mvs i).commonPrefixBit (mvs j) ≥ level))

def put (g : LocalSkipGraph n) (i : Fin n) (identity : Identity) (level : ℕ) (d : Direction) :
    LocalSkipGraph n :=
  { g with lts := Function.update g.lts i ((g.lts i).put level d identity) }

variable {g g' : LocalSkipGraph n} {i j x : Fin n} {level l : ℕ} {d d' : Direction} {e : Identity}

theorem updateEntry_eq (hl : level < lookupTableLevels) :
    g.updateEntry i e level d = .ok (g.put i e level d) := by
  simp [updateEntry,ArrayLookupTable.updateEntry,Nat.not_le.mpr hl,put]

theorem put_entry (hl : level < lookupTableLevels) :
    (g.put i e level d).entry x l d' =
      if x = i ∧ l = level ∧ d' = d then some e else g.entry x l d' := by
  simp only [put,entry,Function.update_apply]
  by_cases hx : x = i
  · subst hx
    simp [ArrayLookupTable.entry_put hl]
  · simp [hx]

theorem shares_equivalence (hl : level < lookupTableLevels) : Equivalence (Shares g.mvs level) := by
  have he := MembershipVector.commonPrefixBit_equivalence (l := level) (Nat.le_of_lt hl)
  exact ⟨fun i => he.refl _,fun h => he.symm h,fun h h' => he.trans h h'⟩

theorem shares_of_le (h : l ≤ level) (hs : Shares g.mvs level i j) : Shares g.mvs l i j :=
  le_trans h hs

structure SameNodes (g g' : LocalSkipGraph n) : Prop where
  identifiers : g'.identifiers = g.identifiers
  mvs : g'.mvs = g.mvs
  addresses : g'.addresses = g.addresses

theorem SameNodes.peer (h : SameNodes g g') : g'.peer = g.peer := by
  funext i
  simp [LocalSkipGraph.peer,h.identifiers,h.mvs]

theorem SameNodes.trans {g'' : LocalSkipGraph n} (h : SameNodes g g') (h' : SameNodes g' g'') :
    SameNodes g g'' :=
  ⟨h'.identifiers.trans h.identifiers,h'.mvs.trans h.mvs,h'.addresses.trans h.addresses⟩

/-- Node `i` and `j` on its left point to each other. -/
def link (g : LocalSkipGraph n) (i j : Fin n) (level : ℕ) : LocalSkipGraph n :=
  (g.put i (g.peer j) level .left).put j (g.peer i) level .right

theorem linkLeftward_eq (hl : level < lookupTableLevels) (js : List (Fin n)) :
    g.linkLeftward i level js = .ok (match js.find? fun j => decide (Shares g.mvs level i j) with
      | some j => (g.link i j level,some j)
      | none => (g,none)) := by
  induction js with
  | nil => rfl
  | cons j js ih =>
    rw [linkLeftward]
    by_cases hs : (g.mvs i).commonPrefixBit (g.mvs j) ≥ level
    · rw [if_pos hs,updateEntry_eq hl]
      simp only [Except.bind]
      rw [updateEntry_eq hl,List.find?_cons_of_pos (by simpa [Shares] using hs)]
      rfl
    · rw [if_neg hs,ih,List.find?_cons_of_neg (by simpa [Shares] using hs)]

/-- The slots once node `i` is linked from level `l₀` on. -/
def linkedFrom (g : LocalSkipGraph n) (i : Fin n) (l₀ : ℕ) (x : Fin n) (l : ℕ) (d : Direction) :
    Option Identity :=
  if l₀ ≤ l ∧ l < lookupTableLevels then
    match before (Shares g.mvs l) i with
    | none => g.entry x l d
    | some j =>
      if x = i ∧ d = .left then some (g.peer j)
      else if x = j ∧ d = .right then some (g.peer i)
      else g.entry x l d
  else g.entry x l d

theorem link_entry (hl : level < lookupTableLevels) (hij : i ≠ j) :
    (g.link i j level).entry x l d =
      if l = level ∧ x = i ∧ d = .left then some (g.peer j)
      else if l = level ∧ x = j ∧ d = .right then some (g.peer i) else g.entry x l d := by
  simp only [link,put_entry hl]
  by_cases hl' : l = level
  · subst hl'
    by_cases hx : x = i
    · subst hx
      cases d <;> simp [hij]
    · cases d <;> simp [hx]
  · simp [hl']

/-- Each scan starts where the one below has ended, and still finds the nearest match. -/
theorem linkLevels_spec (g : LocalSkipGraph n) (loopStart : Fin n) (l₀ k : ℕ) (hl₀ : l₀ ≠ 0)
    (hk : l₀ + k = lookupTableLevels) (hs : before (Shares g.mvs (l₀-1)) i = some loopStart) :
    ∃ g', g.linkLevels i loopStart (List.range' l₀ k) = .ok g' ∧ SameNodes g g' ∧
      g'.entry = g.linkedFrom i l₀ := by
  induction k generalizing l₀ loopStart g with
  | zero =>
    refine ⟨g,rfl,⟨rfl,rfl,rfl⟩,?_⟩
    funext x l d
    rw [linkedFrom,if_neg (by omega)]
  | succ k ih =>
    have hl : l₀ < lookupTableLevels := by omega
    have hfiner : ∀ a b, Shares g.mvs l₀ a b → Shares g.mvs (l₀-1) a b := fun a b =>
      shares_of_le (Nat.sub_le _ _)
    rw [List.range'_succ,linkLevels,linkLeftward_eq hl,← before_of_finer hfiner hs]
    cases hb : before (Shares g.mvs l₀) i with
    | none =>
      refine ⟨g,rfl,⟨rfl,rfl,rfl⟩,?_⟩
      funext x l d
      rw [linkedFrom]
      split
      · rename_i hle
        rw [before_none_of_finer (fun a b => shares_of_le hle.1) hb]
      · rfl
    | some j =>
      have hij : i ≠ j := (ne_of_lt (before_eq_some.mp hb).1).symm
      have hsame : SameNodes g (g.link i j l₀) := ⟨rfl,rfl,rfl⟩
      obtain ⟨g',hg',hsame',hent⟩ := ih (g.link i j l₀) j (l₀+1) (by omega) (by omega) hb
      refine ⟨g',hg',hsame.trans hsame',?_⟩
      rw [hent]
      funext x l d
      simp only [linkedFrom,hsame.mvs,hsame.peer,link_entry hl hij]
      by_cases hll : l = l₀
      · subst hll
        simp [hl,hb]
      · by_cases hle : l₀ ≤ l ∧ l < lookupTableLevels
        · have hle' : l₀+1 ≤ l ∧ l < lookupTableLevels := by omega
          simp [hle,hle',hll]
        · have hle' : ¬ (l₀+1 ≤ l ∧ l < lookupTableLevels) := by omega
          rw [if_neg hle,if_neg hle']
          simp [hll]

/-- The level is wired as far as the nodes `D` are concerned: each of them is linked to its
left neighbour in its prefix class, and back. -/
def WiredAt (g : LocalSkipGraph n) (D : Finset (Fin n)) (l : ℕ) : Prop :=
  ∀ x, g.entry x l .left = (if x ∈ D then before (Shares g.mvs l) x else none).map g.peer ∧
    g.entry x l .right = ((after (Shares g.mvs l) x).filter (· ∈ D)).map g.peer

/-- Linking one node wires it; a slot on the right is written for one node only. -/
theorem WiredAt.link {D : Finset (Fin n)} (hw : g.WiredAt D l) (hl : l < lookupTableLevels)
    (hsame : SameNodes g g') (he : ∀ x d, g'.entry x l d = g.linkedFrom i l x l d) :
    g'.WiredAt (insert i D) l := by
  have heq := shares_equivalence (g := g) hl
  intro x
  obtain ⟨hleft,hright⟩ := hw x
  rw [hsame.mvs,hsame.peer,he,he]
  simp only [linkedFrom,le_refl,hl,and_self,if_true]
  cases hb : before (Shares g.mvs l) i with
  | none =>
    have hafter : after (Shares g.mvs l) x ≠ some i := fun ha => by
      rw [← before_eq_some_iff_after heq,hb] at ha
      simp at ha
    refine ⟨?_,?_⟩
    · simp only [hleft]
      by_cases hx : x = i
      · subst hx
        simp [hb]
      · simp [hx]
    · simp only [hright]
      cases ha : after (Shares g.mvs l) x with
      | none => rfl
      | some k =>
        have hk : k ≠ i := fun h => hafter (h ▸ ha)
        simp [Option.filter,hk]
  | some j =>
    refine ⟨?_,?_⟩
    · by_cases hx : x = i
      · subst hx
        simp [hb]
      · simp [hx,hleft]
    · by_cases hx : x = j
      · subst hx
        simp [(before_eq_some_iff_after heq).mp hb]
      · have hafter : after (Shares g.mvs l) x ≠ some i := fun ha => by
          rw [← before_eq_some_iff_after heq,hb] at ha
          exact hx (Option.some.inj ha).symm
        simp only [hx,hright]
        cases ha : after (Shares g.mvs l) x with
        | none => simp
        | some k =>
          have hk : k ≠ i := fun h => hafter (h ▸ ha)
          simp [Option.filter,hk]

/-- A loop over pairs that wires, at the levels `L`, the second node of each. -/
theorem foldlM_wires (L : ℕ → Prop) (ps : List (Fin n × Fin n))
    {f : LocalSkipGraph n → Fin n × Fin n → Except Error (LocalSkipGraph n)}
    (hf : ∀ g, ∀ p ∈ ps, ∃ g', f g p = .ok g' ∧ SameNodes g g' ∧
      (∀ x l d, ¬ L l → g'.entry x l d = g.entry x l d) ∧
      ∀ l, L l → l < lookupTableLevels ∧ ∀ x d, g'.entry x l d = g.linkedFrom p.2 l x l d)
    (D : Finset (Fin n)) (hw : ∀ l, L l → g.WiredAt D l) :
    ∃ g', ps.foldlM f g = .ok g' ∧ SameNodes g g' ∧
      (∀ x l d, ¬ L l → g'.entry x l d = g.entry x l d) ∧
      ∀ l, L l → g'.WiredAt (D ∪ (ps.map Prod.snd).toFinset) l := by
  induction ps generalizing g D with
  | nil => exact ⟨g,rfl,⟨rfl,rfl,rfl⟩,fun _ _ _ _ => rfl,by simpa using hw⟩
  | cons p ps ih =>
    obtain ⟨g₁,hg₁,hsame₁,hkeep₁,hlink⟩ := hf g p (by simp)
    obtain ⟨g₂,hg₂,hsame₂,hkeep₂,hw₂⟩ := ih (g := g₁) (fun g q hq => hf g q (by simp [hq]))
      (insert p.2 D) fun l hl => (hw l hl).link (hlink l hl).1 hsame₁ (hlink l hl).2
    refine ⟨g₂,?_,hsame₁.trans hsame₂,fun x l d hl => ?_,fun l hl => ?_⟩
    · rw [List.foldlM_cons,hg₁]
      exact hg₂
    · rw [hkeep₂ x l d hl,hkeep₁ x l d hl]
    · have hset : D ∪ ((p::ps).map Prod.snd).toFinset =
          insert p.2 D ∪ (ps.map Prod.snd).toFinset := by
        ext x
        simp
      rw [hset]
      exact hw₂ l hl

theorem mem_windows : (i,j) ∈ windows n ↔ j.val = i.val+1 := by
  rw [windows,List.mem_iff_getElem]
  constructor
  · rintro ⟨k,hk,he⟩
    simp only [List.getElem_zip,List.getElem_finRange,List.getElem_tail,Prod.mk.injEq] at he
    obtain ⟨rfl,rfl⟩ := he
    rfl
  · intro h
    have hj := j.isLt
    refine ⟨i.val,?_,?_⟩
    · simp only [List.length_zip,List.length_tail,List.length_finRange]
      omega
    · simp only [List.getElem_zip,List.getElem_finRange,List.getElem_tail,Prod.mk.injEq]
      exact ⟨rfl,Fin.ext h.symm⟩

theorem before_zero (h : j.val = i.val+1) : before (Shares g.mvs 0) j = some i := by
  refine before_eq_some.mpr ⟨Fin.lt_def.mpr (by omega),Nat.zero_le _,fun k hik hkj => ?_⟩
  rw [Fin.lt_def] at hik hkj
  omega

theorem linkLevelZero_wires (hw : g.WiredAt ∅ 0) :
    ∃ g', g.linkLevelZero = .ok g' ∧ SameNodes g g' ∧
      (∀ x l d, l ≠ 0 → g'.entry x l d = g.entry x l d) ∧
      g'.WiredAt ((windows n).map Prod.snd).toFinset 0 := by
  have h0 : 0 < lookupTableLevels := by decide
  have hstep : ∀ g : LocalSkipGraph n, ∀ p ∈ windows n, ∃ g',
      ((g.updateEntry p.1 (g.peer p.2) 0 .right).bind fun g =>
        g.updateEntry p.2 (g.peer p.1) 0 .left) = .ok g' ∧ SameNodes g g' ∧
      (∀ x l d, ¬ l = 0 → g'.entry x l d = g.entry x l d) ∧
      ∀ l, l = 0 → l < lookupTableLevels ∧ ∀ x d, g'.entry x l d = g.linkedFrom p.2 l x l d := by
    rintro g ⟨a,b⟩ hp
    have hb := before_zero (g := g) (mem_windows.mp hp)
    refine ⟨(g.put a (g.peer b) 0 .right).put b (g.peer a) 0 .left,?_,⟨rfl,rfl,rfl⟩,
      fun x l d hl => ?_,?_⟩
    · rw [updateEntry_eq h0]
      simp only [Except.bind]
      rw [updateEntry_eq h0]
      rfl
    · simp [put_entry h0,hl]
    · rintro l rfl
      refine ⟨h0,fun x d => ?_⟩
      simp only [put_entry h0,linkedFrom,hb,h0,le_refl,and_self,if_true,true_and]
  obtain ⟨g',hg',hsame,hkeep,hwire⟩ := foldlM_wires (· = 0) (windows n) hstep ∅
    (by rintro l rfl; exact hw)
  exact ⟨g',hg',hsame,hkeep,by simpa using hwire 0 rfl⟩

theorem linkHigherLevels_wires (hw : ∀ l, l ≠ 0 → l < lookupTableLevels → g.WiredAt ∅ l) :
    ∃ g', g.linkHigherLevels = .ok g' ∧ SameNodes g g' ∧
      (∀ x d, g'.entry x 0 d = g.entry x 0 d) ∧
      ∀ l, l ≠ 0 → l < lookupTableLevels → g'.WiredAt ((windows n).map Prod.snd).toFinset l := by
  have h0 : 0 < lookupTableLevels := by decide
  have hstep : ∀ g : LocalSkipGraph n, ∀ p ∈ windows n, ∃ g',
      g.linkLevels p.2 p.1 (List.range' 1 (lookupTableLevels-1)) = .ok g' ∧ SameNodes g g' ∧
      (∀ x l d, ¬ (l ≠ 0 ∧ l < lookupTableLevels) → g'.entry x l d = g.entry x l d) ∧
      ∀ l, l ≠ 0 ∧ l < lookupTableLevels → l < lookupTableLevels ∧
        ∀ x d, g'.entry x l d = g.linkedFrom p.2 l x l d := by
    rintro g ⟨a,b⟩ hp
    obtain ⟨g',hg',hsame,hent⟩ := linkLevels_spec g a 1 (lookupTableLevels-1) (by omega)
      (by omega) (before_zero (g := g) (mem_windows.mp hp))
    refine ⟨g',hg',hsame,fun x l d hl => ?_,fun l hl => ⟨hl.2,fun x d => ?_⟩⟩
    · rw [hent,linkedFrom,if_neg]
      omega
    · rw [hent,linkedFrom,linkedFrom,if_pos ⟨by omega,hl.2⟩,if_pos ⟨le_refl l,hl.2⟩]
  obtain ⟨g',hg',hsame,hkeep,hwire⟩ := foldlM_wires (fun l => l ≠ 0 ∧ l < lookupTableLevels)
    (windows n) hstep ∅ fun l hl => hw l hl.1 hl.2
  exact ⟨g',hg',hsame,fun x d => hkeep x 0 d (by simp),fun l h h' => by
    simpa using hwire l ⟨h,h'⟩⟩

/-- Registration goes through exactly when no identifier is taken or repeated. -/
theorem register_iff (g : LocalSkipGraph n) (is : List (Fin n)) (h : NetworkHub) :
    (∃ h', is.foldlM (fun (h : NetworkHub) i =>
      h.addNode ⟨g.identifiers i,g.mvs i,.new⟩ (g.addresses i)) h = .ok h') ↔
      (is.map g.identifiers).Nodup ∧ ∀ i ∈ is, h.networks (g.identifiers i) = none := by
  induction is generalizing h with
  | nil => simp [pure,Except.pure]
  | cons i is ih =>
    rw [List.foldlM_cons,List.map_cons,List.nodup_cons]
    cases hn : h.networks (g.identifiers i) with
    | some m =>
      rw [NetworkHub.addNode_error ⟨g.identifiers i,g.mvs i,.new⟩ (g.addresses i) hn]
      simp [bind,Except.bind,hn]
    | none =>
      rw [NetworkHub.addNode_ok ⟨g.identifiers i,g.mvs i,.new⟩ (g.addresses i) hn]
      refine (ih _).trans ⟨fun ⟨hnd,hfree⟩ => ?_,fun ⟨⟨hi,hnd⟩,hfree⟩ => ⟨hnd,fun k hk => ?_⟩⟩
      · have hne : ∀ k ∈ is, g.identifiers k ≠ g.identifiers i := by
          intro k hk he
          have hk := hfree k hk
          simp [NetworkHub.insert,he] at hk
        refine ⟨⟨fun hm => ?_,hnd⟩,fun k hk => ?_⟩
        · obtain ⟨k,hk,he⟩ := List.mem_map.mp hm
          exact hne k hk he
        · rcases List.mem_cons.mp hk with rfl | hk
          · exact hn
          · simpa [NetworkHub.insert,hne k hk] using hfree k hk
      · have hki : g.identifiers k ≠ g.identifiers i := fun he =>
          hi (he ▸ List.mem_map_of_mem hk)
        simpa [NetworkHub.insert,hki] using hfree k (by simp [hk])

theorem register_ok_iff (g : LocalSkipGraph n) :
    (∃ h, g.register = .ok h) ↔ Function.Injective g.identifiers := by
  rw [register,register_iff,← List.nodup_ofFn,List.ofFn_eq_map]
  exact and_iff_left fun _ _ => rfl

end LocalSkipGraph

section Sorted

variable {n : ℕ} (draws : Fin n → Identifier)

theorem ofFn_randomSortedIdentifiers : List.ofFn (randomSortedIdentifiers draws) =
    (List.ofFn draws).mergeSort fun a b => decide (a ≤ b) := by
  apply List.ext_get
  · simp
  · intro k hk hk'
    simp [randomSortedIdentifiers]

theorem randomSortedIdentifiers_injective :
    Function.Injective (randomSortedIdentifiers draws) ↔ Function.Injective draws := by
  rw [← List.nodup_ofFn,← List.nodup_ofFn,ofFn_randomSortedIdentifiers]
  exact (List.mergeSort_perm _ _).nodup_iff

theorem randomSortedIdentifiers_monotone : Monotone (randomSortedIdentifiers draws) := by
  have hs : ((List.ofFn draws).mergeSort fun a b => decide (a ≤ b)).Pairwise (· ≤ ·) := by
    have hp := @List.pairwise_mergeSort Identifier (fun a b => decide (a ≤ b))
      (fun a b c hab hbc => by simp at *; exact hab.trans hbc)
      (fun a b => by simpa using le_total a b) (List.ofFn draws)
    simpa using hp
  rw [← ofFn_randomSortedIdentifiers,List.pairwise_ofFn] at hs
  intro i j hij
  rcases hij.lt_or_eq with hlt | rfl
  · exact hs hlt
  · exact le_refl _

theorem range_randomSortedIdentifiers :
    Set.range (randomSortedIdentifiers draws) = Set.range draws := by
  ext x
  have hx : x ∈ List.ofFn (randomSortedIdentifiers draws) ↔ x ∈ List.ofFn draws := by
    rw [ofFn_randomSortedIdentifiers]
    exact (List.mergeSort_perm _ _).mem_iff
  simpa only [List.mem_ofFn,Set.mem_range] using hx

end Sorted

namespace LocalSkipGraph

variable {n : ℕ} {g : LocalSkipGraph n} {i j : Fin n} {level : ℕ}

/-- Every slot holds the nearest node of the prefix class on its side. -/
structure Wired (g : LocalSkipGraph n) : Prop where
  left : ∀ i level, level < lookupTableLevels →
    g.entry i level .left = (before (Shares g.mvs level) i).map g.peer
  right : ∀ i level, level < lookupTableLevels →
    g.entry i level .right = (after (Shares g.mvs level) i).map g.peer

theorem mem_snd_windows : i ∈ ((windows n).map Prod.snd).toFinset ↔ i.val ≠ 0 := by
  rw [List.mem_toFinset,List.mem_map]
  constructor
  · rintro ⟨⟨a,b⟩,hab,rfl⟩
    have hv := mem_windows.mp hab
    simp only
    omega
  · intro hi
    refine ⟨(⟨i.val-1,by omega⟩,i),mem_windows.mpr ?_,rfl⟩
    simp only
    omega

/-- The first node is the only one that is not linked leftward, and it has nothing there. -/
theorem wired_of_wiredAt
    (hw : ∀ l < lookupTableLevels, g.WiredAt ((windows n).map Prod.snd).toFinset l) : g.Wired where
  left i l hl := by
    rw [(hw l hl i).1]
    split
    · rfl
    · rename_i hi
      rw [mem_snd_windows,not_not] at hi
      rw [before_eq_none.mpr fun k hk => absurd (Fin.lt_def.mp hk) (by omega)]
  right i l hl := by
    rw [(hw l hl i).2]
    cases ha : after (Shares g.mvs l) i with
    | none => rfl
    | some k =>
      have hk := (after_eq_some.mp ha).1
      rw [Option.filter_some_pos]
      rw [decide_eq_true_iff,mem_snd_windows]
      rw [Fin.lt_def] at hk
      omega

theorem entry_of_lts_new (h : g.lts = fun _ => .new) (d : Direction) : g.entry i level d = none := by
  simp [entry,h]

theorem link_wires (h : g.lts = fun _ => .new) :
    ∃ g', g.linkLevelZero.bind linkHigherLevels = .ok g' ∧ SameNodes g g' ∧ g'.Wired := by
  have hempty : ∀ l, g.WiredAt ∅ l := fun l x => by
    simp [entry_of_lts_new h]
  obtain ⟨g₁,hg₁,hsame₁,hkeep₁,hw₁⟩ := linkLevelZero_wires (hempty 0)
  have hempty₁ : ∀ l, l ≠ 0 → l < lookupTableLevels → g₁.WiredAt ∅ l := fun l hl _ x => by
    rw [hkeep₁ x l _ hl,hkeep₁ x l _ hl]
    simp [entry_of_lts_new h]
  obtain ⟨g₂,hg₂,hsame₂,hkeep₂,hw₂⟩ := linkHigherLevels_wires hempty₁
  refine ⟨g₂,by rw [hg₁]; exact hg₂,hsame₁.trans hsame₂,wired_of_wiredAt fun l hl => ?_⟩
  by_cases hl0 : l = 0
  · subst hl0
    intro x
    rw [hkeep₂,hkeep₂,hsame₂.mvs,hsame₂.peer]
    exact hw₁ x
  · exact hw₂ l hl0 hl

variable {draws : Fin n → Identifier} {mvs : Fin n → MembershipVector}
  {addresses : Fin n → Address}

theorem exists_new (mvs : Fin n → MembershipVector) (addresses : Fin n → Address) (hn : n ≠ 0)
    (hinj : Function.Injective draws) :
    ∃ g, new draws mvs addresses = .ok g := by
  obtain ⟨h,hh⟩ := (register_ok_iff (unlinked draws mvs addresses)).mpr
    ((randomSortedIdentifiers_injective draws).mpr hinj)
  obtain ⟨g,hg,-⟩ := link_wires (g := unlinked draws mvs addresses) rfl
  refine ⟨g,?_⟩
  rw [new,if_neg hn,hh]
  exact hg

theorem new_ok (h : new draws mvs addresses = .ok g) : n ≠ 0 ∧ Function.Injective draws ∧
    StrictMono g.identifiers ∧ Set.range g.identifiers = Set.range draws ∧ g.mvs = mvs ∧
    g.addresses = addresses ∧ g.Wired := by
  have hn : n ≠ 0 := by
    rintro rfl
    simp [new] at h
  rw [new,if_neg hn] at h
  cases hreg : (unlinked draws mvs addresses).register with
  | error e =>
    rw [hreg] at h
    simp [Except.bind] at h
  | ok hub =>
    have hinj := (register_ok_iff (unlinked draws mvs addresses)).mp ⟨hub,hreg⟩
    obtain ⟨g',hg',hsame,hwired⟩ := link_wires (g := unlinked draws mvs addresses) rfl
    rw [hreg] at h
    obtain rfl : g' = g := Except.ok.inj (hg'.symm.trans h)
    refine ⟨hn,(randomSortedIdentifiers_injective draws).mp hinj,?_,?_,hsame.mvs,hsame.addresses,
      hwired⟩
    · rw [hsame.identifiers]
      exact (randomSortedIdentifiers_monotone draws).strictMono_of_injective hinj
    · rw [hsame.identifiers]
      exact range_randomSortedIdentifiers draws

/-- The construction fails without nodes and on a repeated draw, and on nothing else. The
graph it returns has the drawn identifiers in ascending order, and every slot of every node
holds the nearest node on its side with which it shares the prefix of the level, although the
scans skip positions and give up levels. -/
theorem new_wires_every_level (draws : Fin n → Identifier) (mvs : Fin n → MembershipVector)
    (addresses : Fin n → Address) :
    match new draws mvs addresses with
    | .ok g => n ≠ 0 ∧ Function.Injective draws ∧ StrictMono g.identifiers ∧
        Set.range g.identifiers = Set.range draws ∧ g.mvs = mvs ∧ g.addresses = addresses ∧ g.Wired
    | .error _ => n = 0 ∨ ¬ Function.Injective draws := by
  cases h : new draws mvs addresses with
  | ok g => exact new_ok h
  | error e =>
    by_contra hc
    obtain ⟨hn,hinj⟩ := not_or.mp hc
    obtain ⟨g,hg⟩ := exists_new mvs addresses hn (not_not.mp hinj)
    simp [h] at hg

end LocalSkipGraph

end SkipGraph
