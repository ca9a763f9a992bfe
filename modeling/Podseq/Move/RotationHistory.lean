import Podseq.Lib.Runs
import Podseq.Move.Package

/-! # Who can act for a guarded object

The operations of `podseq::rotation` over any number of guarded objects, called by anyone who
can pass the gate of each. Beside every object stands its past: the latest request and claim,
the addresses that holders of its `OpsCap` have requested, and the authority it was seeded with.
-/
namespace Podseq.Move
open Podseq.Lib Rotation

/-- Guarded objects and `OpsCap`s, under the consensus clock. -/
structure RotationChain (κ : Type) where
  now : Nat
  /-- Object ids are never reused: the next fresh one. -/
  nextId : ObjectId
  objects : Table ObjectId (Guarded κ)
  /-- Each `OpsCap` with its owner. -/
  opsCaps : Table ObjectId (OpsCap × Address)

inductive RotationCall (κ : Type)
  | tick (now : Nat)
  /-- A new object that can be guarded. -/
  | create
  | entombOps (id : ObjectId) (cap : κ)
  | mintOpsCap (id : ObjectId) (recipient : Address)
  | retireOpsCap (ops : ObjectId)
  | transferOpsCap (ops : ObjectId) (recipient : Address)
  | requestRotationOps (id : ObjectId) (toAddr : Address) (delayMs : Nat) (ops : ObjectId)
  | cancelRotation (id : ObjectId)
  | claimRotation (id : ObjectId)
  | retirePrevious (id : ObjectId)
deriving DecidableEq, Repr

namespace RotationChain

variable {κ : Type}

/-- The `OpsCap` a call presents: the sender has to own it. -/
def ownedOps (c : RotationChain κ) (sender : Address) (ops : ObjectId) : Tx OpsCap :=
  match c.opsCaps ops with
  | some (cap, owner) => if owner = sender then .ok cap else .error .badInput
  | none => .error .badInput

def put (c : RotationChain κ) (id : ObjectId) (g : Guarded κ) : RotationChain κ :=
  { c with objects := Function.update c.objects id (some g) }

/-- An object after a mint, with the `OpsCap` under the fresh id. -/
def putMinted (c : RotationChain κ) (id : ObjectId) (g : Guarded κ) (ops : OpsCap)
    (recipient : Address) : RotationChain κ :=
  { c with
    nextId := c.nextId + 1
    objects := Function.update c.objects id (some g)
    opsCaps := Function.update c.opsCaps c.nextId (some (ops, recipient)) }

/-- One call by `sender`. -/
def call (c : RotationChain κ) (sender : Address) : RotationCall κ → Tx (RotationChain κ)
  | .tick now => do
    require (c.now ≤ now) .badInput
    return { c with now }
  | .create =>
    return { c with
      nextId := c.nextId + 1
      objects := Function.update c.objects c.nextId (some (Guarded.new c.nextId)) }
  | .entombOps id cap => do
    let g ← World.input c.objects id
    let (g, ops, recipient) ← entombOps g cap sender c.nextId
    return c.putMinted id g ops recipient
  | .mintOpsCap id recipient => do
    let g ← World.input c.objects id
    let (g, ops, recipient) ← mintOpsCap g recipient sender c.nextId
    return c.putMinted id g ops recipient
  | .retireOpsCap ops => do
    let _ ← c.ownedOps sender ops
    return { c with opsCaps := Function.update c.opsCaps ops none }
  | .transferOpsCap ops recipient => do
    let cap ← c.ownedOps sender ops
    return { c with opsCaps := Function.update c.opsCaps ops (some (cap, recipient)) }
  | .requestRotationOps id toAddr delayMs ops => do
    let g ← World.input c.objects id
    let cap ← c.ownedOps sender ops
    let g ← requestRotationOps g toAddr delayMs c.now cap
    return c.put id g
  | .cancelRotation id => do
    let g ← World.input c.objects id
    let g ← cancelRotation g sender
    return c.put id g
  | .claimRotation id => do
    let g ← World.input c.objects id
    let g ← claimRotation g c.now sender
    return c.put id g
  | .retirePrevious id => do
    let g ← World.input c.objects id
    let g ← retirePrevious g sender
    return c.put id g

variable {c c' : RotationChain κ} {sender : Address} {a : RotationCall κ} {id : ObjectId}
  {g g' : Guarded κ}

@[simp] theorem ownedOps_eq_ok {ops : ObjectId} {cap : OpsCap} :
    c.ownedOps sender ops = .ok cap ↔ c.opsCaps ops = some (cap, sender) := by
  unfold ownedOps
  split
  · split <;> simp_all
  · simp_all

/-! ## What one call does to an object -/

def target : RotationCall κ → Option ObjectId
  | .entombOps id _ => some id
  | .mintOpsCap id _ => some id
  | .requestRotationOps id _ _ _ => some id
  | .cancelRotation id => some id
  | .claimRotation id => some id
  | .retirePrevious id => some id
  | _ => none

/-- What a call did to the object it worked on, with what its gate has checked. -/
inductive Moves (c : RotationChain κ) (sender : Address) (id : ObjectId) (g g' : Guarded κ) :
    RotationCall κ → Prop
  | entomb {cap} (record : g.record = none) (unminted : g.opsMinted = false)
      (eq : g' = { g with
        tomb := some cap, record := some ⟨sender, none, none⟩, opsMinted := true }) :
      Moves c sender id g g' (.entombOps id cap)
  | mint {recipient st} (record : g.record = some st) (authority : sender = st.authority)
      (unminted : g.opsMinted = false) (eq : g' = { g with opsMinted := true }) :
      Moves c sender id g g' (.mintOpsCap id recipient)
  | request {toAddr delayMs ops cap st} (owned : c.opsCaps ops = some (cap, sender))
      (steers : cap.forId = g.id) (delay : minDelayMs ≤ delayMs) (record : g.record = some st)
      (eq : g' = { g with
        record := some { st with pending := some ⟨toAddr, c.now + delayMs⟩ } }) :
      Moves c sender id g g' (.requestRotationOps id toAddr delayMs ops)
  | cancel {st} (record : g.record = some st) (authority : sender = st.authority)
      (eq : g' = { g with record := some { st with pending := none } }) :
      Moves c sender id g g' (.cancelRotation id)
  | claim {st p} (record : g.record = some st) (pending : st.pending = some p)
      (toAddr : sender = p.toAddr) (eligible : p.eligibleAtMs ≤ c.now)
      (open_ : c.now ≤ p.eligibleAtMs + claimWindowMs)
      (eq : g' = { g with
        record := some ⟨sender, some ⟨st.authority, c.now + prevGraceMs⟩, none⟩ }) :
      Moves c sender id g g' (.claimRotation id)
  | retire {st} (record : g.record = some st) (authority : sender = st.authority)
      (eq : g' = { g with record := some { st with prev := none } }) :
      Moves c sender id g g' (.retirePrevious id)

/-- The object a call works on moves as its operation says. -/
theorem call_target (h : c.call sender a = .ok c') (ht : target a = some id) :
    ∃ g g', c.objects id = some g ∧ Moves c sender id g g' a ∧
      c'.objects = Function.update c.objects id (some g') := by
  cases a with
  | tick now => cases ht
  | create => cases ht
  | retireOpsCap ops => cases ht
  | transferOpsCap ops recipient => cases ht
  | entombOps id' cap =>
    cases ht
    simp only [call, bind_eq_ok, World.input_eq_ok, entombOps_eq_ok, pure_eq_ok] at h
    obtain ⟨g, hg, _, ⟨hrec, hunminted, -, rfl⟩, rfl⟩ := h
    exact ⟨g, _, hg, .entomb hrec hunminted rfl, rfl⟩
  | mintOpsCap id' recipient =>
    cases ht
    simp only [call, bind_eq_ok, World.input_eq_ok, mintOpsCap_eq_ok, pure_eq_ok] at h
    obtain ⟨g, hg, _, ⟨⟨st, hst, hauth⟩, hunminted, rfl⟩, rfl⟩ := h
    exact ⟨g, _, hg, .mint hst hauth hunminted rfl, rfl⟩
  | requestRotationOps id' toAddr delayMs ops =>
    cases ht
    simp only [call, bind_eq_ok, World.input_eq_ok, ownedOps_eq_ok, requestRotationOps_eq_ok,
      pure_eq_ok] at h
    obtain ⟨g, hg, cap, hcap, _, ⟨hid, hdelay, -, st, hst, rfl⟩, rfl⟩ := h
    exact ⟨g, _, hg, .request hcap hid hdelay.1 hst rfl, rfl⟩
  | cancelRotation id' =>
    cases ht
    simp only [call, bind_eq_ok, World.input_eq_ok, cancelRotation_eq_ok, pure_eq_ok] at h
    obtain ⟨g, hg, _, ⟨st, hst, hauth, -, rfl⟩, rfl⟩ := h
    exact ⟨g, _, hg, .cancel hst hauth rfl, rfl⟩
  | claimRotation id' =>
    cases ht
    simp only [call, bind_eq_ok, World.input_eq_ok, claimRotation_eq_ok, pure_eq_ok] at h
    obtain ⟨g, hg, _, ⟨st, p, hst, hp, hto, helig, -, hwin, -, rfl⟩, rfl⟩ := h
    exact ⟨g, _, hg, .claim hst hp hto helig hwin rfl, rfl⟩
  | retirePrevious id' =>
    cases ht
    simp only [call, bind_eq_ok, World.input_eq_ok, retirePrevious_eq_ok, pure_eq_ok] at h
    obtain ⟨g, hg, _, ⟨st, hst, hauth, -, rfl⟩, rfl⟩ := h
    exact ⟨g, _, hg, .retire hst hauth rfl, rfl⟩

/-- A call that works on no object leaves them alone or creates one. -/
theorem call_targetless (h : c.call sender a = .ok c') (ht : target a = none) :
    c'.objects = c.objects ∨ (c'.nextId = c.nextId + 1 ∧
      c'.objects = Function.update c.objects c.nextId (some (Guarded.new c.nextId))) := by
  cases a with
  | tick now =>
    simp only [call, bind_eq_ok, pure_eq_ok] at h
    obtain ⟨-, -, rfl⟩ := h
    exact .inl rfl
  | create => cases h; exact .inr ⟨rfl, rfl⟩
  | retireOpsCap ops =>
    simp only [call, bind_eq_ok, pure_eq_ok] at h
    obtain ⟨-, -, rfl⟩ := h
    exact .inl rfl
  | transferOpsCap ops recipient =>
    simp only [call, bind_eq_ok, pure_eq_ok] at h
    obtain ⟨-, -, rfl⟩ := h
    exact .inl rfl
  | _ => cases ht

/-- Where an object of the next state comes from: it is new, or was there and was left alone by
a call on another one, or the call worked on it. -/
theorem object_origin (h : c.call sender a = .ok c') (hg' : c'.objects id = some g') :
    (id = c.nextId ∧ target a = none ∧ c'.nextId = c.nextId + 1 ∧ g' = Guarded.new id) ∨
    (c.objects id = some g' ∧ target a ≠ some id) ∨
    ∃ g, c.objects id = some g ∧ Moves c sender id g g' a := by
  cases ht : target a with
  | none =>
    obtain he | ⟨hnext, he⟩ := call_targetless h ht <;> rw [he] at hg'
    · exact .inr (.inl ⟨hg', by simp⟩)
    · by_cases hn : id = c.nextId
      · subst hn
        rw [Function.update_self, Option.some.injEq] at hg'
        exact .inl ⟨rfl, rfl, hnext, hg'.symm⟩
      · rw [Function.update_of_ne hn] at hg'
        exact .inr (.inl ⟨hg', by simp⟩)
  | some id₀ =>
    obtain ⟨g, g₁, hg, hm, he⟩ := call_target h ht
    rw [he] at hg'
    by_cases hn : id = id₀
    · subst hn
      rw [Function.update_self, Option.some.injEq] at hg'
      subst hg'
      exact .inr (.inr ⟨g, hg, hm⟩)
    · rw [Function.update_of_ne hn] at hg'
      exact .inr (.inl ⟨hg', fun heq => hn (Option.some.inj heq).symm⟩)

theorem Moves.id_eq (h : Moves c sender id g g' a) : g'.id = g.id := by
  cases h with
  | entomb _ _ heq | cancel _ _ heq | retire _ _ heq => rw [heq]
  | mint _ _ _ heq => rw [heq]
  | request _ _ _ _ heq => rw [heq]
  | claim _ _ _ _ _ heq => rw [heq]

theorem call_nextId (h : c.call sender a = .ok c') : c.nextId ≤ c'.nextId := by
  cases a <;> simp only [call, bind_eq_ok, pure_eq_ok] at h <;> grind [put, putMinted]

/-- Objects sit under their own ids, below the next fresh one. -/
def Placed (c : RotationChain κ) : Prop :=
  ∀ id g, c.objects id = some g → g.id = id ∧ id < c.nextId

theorem Placed.call (hp : c.Placed) (h : c.call sender a = .ok c') : c'.Placed := by
  intro id g' hg'
  obtain ⟨rfl, -, hnext, rfl⟩ | ⟨hg, -⟩ | ⟨g, hg, hm⟩ := object_origin h hg'
  · exact ⟨rfl, hnext ▸ Nat.lt_succ_self _⟩
  · exact ⟨(hp id g' hg).1, (hp id g' hg).2.trans_le (call_nextId h)⟩
  · exact ⟨hm.id_eq.trans (hp id g hg).1, (hp id g hg).2.trans_le (call_nextId h)⟩

/-- What becomes of an object: a call on it moves it, any other leaves it alone. -/
theorem object_next (h : c.call sender a = .ok c') (hp : c.Placed)
    (hg : c.objects id = some g) :
    ∃ g', c'.objects id = some g' ∧ (g' = g ∨ Moves c sender id g g' a) := by
  cases ht : target a with
  | none =>
    refine ⟨g, ?_, .inl rfl⟩
    obtain he | ⟨-, he⟩ := call_targetless h ht
    · rw [he, hg]
    · rw [he, Function.update_of_ne (Nat.ne_of_lt (hp id g hg).2), hg]
  | some id₀ =>
    obtain ⟨g₀, g', hg₀, hm, he⟩ := call_target h ht
    by_cases hn : id = id₀
    · subst hn
      rw [hg] at hg₀; cases hg₀
      exact ⟨g', by rw [he, Function.update_self], .inr hm⟩
    · exact ⟨g, by rw [he, Function.update_of_ne hn, hg], .inl rfl⟩

end RotationChain

/-! ## The past of an object -/

structure RequestMade where
  toAddr : Address
  atMs : Nat
  eligibleAtMs : Nat
  cancelled : Bool
deriving DecidableEq, Repr

structure ClaimMade where
  replaced : Address
  atMs : Nat
  retired : Bool
deriving DecidableEq, Repr

/-- What was done to one object: its latest request and claim, every address that a holder of
its `OpsCap` requested, and the authority it was seeded with. -/
structure Past where
  request : Option RequestMade
  claim : Option ClaimMade
  requested : List Address
  seeded : Option Address
deriving DecidableEq, Repr

def Past.none : Past := ⟨.none, .none, [], .none⟩

structure RotationHistory (κ : Type) where
  chain : RotationChain κ
  past : ObjectId → Past
  /-- Every `OpsCap` ever minted. -/
  minted : List OpsCap

namespace RotationHistory

variable {κ : Type}

/-- The sender holds, under `ops`, an `OpsCap` of the object. -/
def holds (s : RotationHistory κ) (sender : Address) (ops id : ObjectId) : Bool :=
  match s.chain.opsCaps ops with
  | some (cap, owner) => owner = sender && cap.forId = id
  | none => false

def authorityOf (s : RotationHistory κ) (id : ObjectId) : Option Address :=
  ((s.chain.objects id).bind (·.record)).map (·.authority)

def recordPast (s : RotationHistory κ) (sender : Address) : RotationCall κ → ObjectId → Past
  | .entombOps id _ => Function.update s.past id { s.past id with seeded := some sender }
  | .requestRotationOps id toAddr delayMs ops =>
    Function.update s.past id { s.past id with
      request := some ⟨toAddr, s.chain.now, s.chain.now + delayMs, false⟩
      requested := if s.holds sender ops id then toAddr :: (s.past id).requested
        else (s.past id).requested }
  | .cancelRotation id =>
    Function.update s.past id { s.past id with
      request := (s.past id).request.map ({ · with cancelled := true }) }
  | .claimRotation id =>
    Function.update s.past id { s.past id with
      claim := (s.authorityOf id).map fun replaced => ⟨replaced, s.chain.now, false⟩ }
  | .retirePrevious id =>
    Function.update s.past id { s.past id with
      claim := (s.past id).claim.map ({ · with retired := true }) }
  | _ => s.past

def recordMint (s : RotationHistory κ) : RotationCall κ → List OpsCap
  | .entombOps id _ => ⟨s.chain.nextId, id⟩ :: s.minted
  | .mintOpsCap id _ => ⟨s.chain.nextId, id⟩ :: s.minted
  | _ => s.minted

def step (s : RotationHistory κ) (a : Address × RotationCall κ) : Option (RotationHistory κ) :=
  (s.chain.call a.1 a.2).toOption.map fun chain =>
    { chain, past := s.recordPast a.1 a.2, minted := s.recordMint a.2 }

/-- Objects from before the first `OpsCap`: none is minted, and a record may exist already. -/
structure Legacy (s : RotationHistory κ) : Prop where
  placed : s.chain.Placed
  unminted : ∀ id g, s.chain.objects id = some g → g.opsMinted = false
  opsCaps : s.chain.opsCaps = Table.empty
  minted : s.minted = []

/-- Such objects without a rotation under way; the past knows the authority of each. -/
structure Start (s : RotationHistory κ) : Prop extends Legacy s where
  record : ∀ id g st, s.chain.objects id = some g → g.record = some st →
    st.prev = none ∧ st.pending = none ∧ (s.past id).seeded = some st.authority

variable {s t : RotationHistory κ} {a : Address × RotationCall κ} {id : ObjectId}
  {g g' : Guarded κ}

theorem step_cases (h : enabled step s a t) :
    s.chain.call a.1 a.2 = .ok t.chain ∧ t.past = s.recordPast a.1 a.2 ∧
      t.minted = s.recordMint a.2 := by
  simp only [enabled, step, Option.map_eq_some_iff, toOption_eq_some] at h
  obtain ⟨chain, hcall, rfl⟩ := h
  exact ⟨hcall, rfl, rfl⟩

/-- A call on another object adds nothing to the past of this one. -/
theorem recordPast_of_ne (h : RotationChain.target a.2 ≠ some id) :
    s.recordPast a.1 a.2 id = s.past id := by
  obtain ⟨sender, call⟩ := a
  cases call <;> simp only [RotationChain.target, ne_eq, Option.some.injEq] at h <;>
    first
    | rfl
    | exact Function.update_of_ne (fun heq => h heq.symm) _ _

theorem reachable_legacy (h : Reachable Start (enabled step) s) :
    Reachable Legacy (enabled step) s := by
  obtain ⟨s₀, as, h₀, hrun⟩ := h
  exact ⟨s₀, as, h₀.toLegacy, hrun⟩

theorem reachable_placed (h : Reachable Legacy (enabled step) s) : s.chain.Placed :=
  h.inv (I := fun s => s.chain.Placed) (fun _ hs => hs.placed)
    fun _ _ _ hp hst => hp.call (step_cases hst).1

/-! ## Records and their past -/

/-- The past explains what the record holds: the pending request is the latest one, not
cancelled and made with its delay; the previous authority was replaced by the latest claim, not
retired; the authority was seeded or requested by a holder of the `OpsCap`. -/
structure Explains (past : Past) (st : RotationState) : Prop where
  pending : ∀ p, st.pending = some p → p.toAddr ∈ past.requested ∧
    ∃ req, past.request = some req ∧ req.toAddr = p.toAddr ∧ req.cancelled = false ∧
      req.eligibleAtMs = p.eligibleAtMs ∧ req.atMs + minDelayMs ≤ p.eligibleAtMs
  prev : ∀ q, st.prev = some q → ∃ cl, past.claim = some cl ∧ cl.replaced = q.addr ∧
    cl.retired = false ∧ q.untilMs = cl.atMs + prevGraceMs
  authority : past.seeded = some st.authority ∨ st.authority ∈ past.requested

def Explained (s : RotationHistory κ) : Prop :=
  ∀ id g st, s.chain.objects id = some g → g.record = some st → Explains (s.past id) st

/-- What a call on an object does to its record, its past explains. -/
theorem Explains.moves {sender : Address} {call : RotationCall κ}
    (hid : g.id = id) (hobj : s.chain.objects id = some g)
    (hold : ∀ st, g.record = some st → Explains (s.past id) st)
    (hm : RotationChain.Moves s.chain sender id g g' call) {st' : RotationState}
    (hst' : g'.record = some st') : Explains (s.recordPast sender call id) st' := by
  cases hm with
  | entomb _ _ heq =>
    rw [heq, Option.some.injEq] at hst'
    subst hst'
    simp only [recordPast, Function.update_self]
    exact ⟨(fun p hp => by cases hp), (fun q hq => by cases hq), .inl rfl⟩
  | mint hst _ _ heq =>
    rw [heq] at hst'
    exact hold st' hst'
  -- the new pending request is the one made now, by the holder of the `OpsCap`
  | @request toAddr delayMs ops cap st hcap hsteers hdelay hst heq =>
    rw [heq, Option.some.injEq] at hst'
    subst hst'
    have hold := hold st hst
    have hholds : s.holds sender ops id = true := by
      simp [holds, hcap, hsteers, hid]
    simp only [recordPast, Function.update_self, hholds, if_true]
    refine ⟨fun p hp => ?_, hold.prev, hold.authority.imp_right (List.mem_cons_of_mem _)⟩
    rw [Option.some.injEq] at hp
    subst hp
    exact ⟨List.mem_cons_self, _, rfl, rfl, rfl, rfl, Nat.add_le_add_left hdelay _⟩
  | cancel hst _ heq =>
    rw [heq, Option.some.injEq] at hst'
    subst hst'
    have hold := hold _ hst
    simp only [recordPast, Function.update_self]
    exact ⟨(fun p hp => by cases hp), hold.prev, hold.authority⟩
  -- the authority so far becomes the previous one, and the claimant was requested
  | @claim st p hst hp hto _ _ heq =>
    rw [heq, Option.some.injEq] at hst'
    subst hst'
    have hold := hold st hst
    have hauth : s.authorityOf id = some st.authority := by
      simp [authorityOf, hobj, hst]
    simp only [recordPast, Function.update_self, hauth, Option.map_some]
    refine ⟨(fun p hp => by cases hp), fun q hq => ?_, .inr ?_⟩
    · rw [Option.some.injEq] at hq
      subst hq
      exact ⟨_, rfl, rfl, rfl, rfl⟩
    · rw [hto]
      exact (hold.pending p hp).1
  | retire hst _ heq =>
    rw [heq, Option.some.injEq] at hst'
    subst hst'
    have hold := hold _ hst
    simp only [recordPast, Function.update_self]
    exact ⟨hold.pending, (fun q hq => by cases hq), hold.authority⟩

theorem reachable_explained (h : Reachable Start (enabled step) s) : Explained s := by
  refine h.inv_of (I := Explained) (J := fun s => s.chain.Placed)
    (fun _ hs => reachable_placed (reachable_legacy hs)) ?_ ?_
  · intro s hs id g st hg hst
    obtain ⟨hprev, hpend, hseed⟩ := hs.record id g st hg hst
    exact ⟨(fun p hp => by rw [hpend] at hp; cases hp), (fun q hq => by rw [hprev] at hq; cases hq),
      .inl hseed⟩
  · intro s a t hp _ hi hst id g' st' hg' hst'
    obtain ⟨hcall, hpast, -⟩ := step_cases hst
    rw [hpast]
    obtain ⟨-, -, -, rfl⟩ | ⟨hg, ht⟩ | ⟨g, hg, hm⟩ := RotationChain.object_origin hcall hg'
    · cases hst'
    · rw [recordPast_of_ne ht]
      exact hi id g' st' hg hst'
    · exact Explains.moves (hp id g hg).1 hg (fun st => hi id g st hg) hm hst'

/-- A change of the authority is a claim by the target of the pending request, in its window. -/
theorem claim_of_authority_ne (hst : enabled step s a t) (hg : s.chain.objects id = some g)
    (hg' : t.chain.objects id = some g') {st st' : RotationState} (hrec : g.record = some st)
    (hrec' : g'.record = some st') (hne : st'.authority ≠ st.authority) (hp : s.chain.Placed) :
    a.2 = .claimRotation id ∧ st'.authority = a.1 ∧ ∃ p, st.pending = some p ∧ a.1 = p.toAddr ∧
      p.eligibleAtMs ≤ s.chain.now ∧ s.chain.now ≤ p.eligibleAtMs + claimWindowMs := by
  obtain ⟨sender, call⟩ := a
  obtain ⟨hcall, -, -⟩ := step_cases hst
  obtain ⟨rfl, -⟩ | ⟨hsame, -⟩ | ⟨g₀, hg₀, hm⟩ := RotationChain.object_origin hcall hg'
  · exact absurd (hp _ _ hg).2 (Nat.lt_irrefl _)
  · rw [hg] at hsame; cases hsame
    rw [hrec] at hrec'; cases hrec'
    exact absurd rfl hne
  · rw [hg] at hg₀; cases hg₀
    cases hm with
    | entomb hnone _ _ => rw [hrec] at hnone; cases hnone
    | mint _ _ _ heq =>
      rw [heq, hrec] at hrec'; cases hrec'
      exact absurd rfl hne
    | request _ _ _ hst₀ heq =>
      rw [hrec] at hst₀; cases hst₀
      rw [heq] at hrec'; cases hrec'
      exact absurd rfl hne
    | cancel hst₀ _ heq | retire hst₀ _ heq =>
      rw [hrec] at hst₀; cases hst₀
      rw [heq] at hrec'; cases hrec'
      exact absurd rfl hne
    | claim hst₀ hpend hto helig hwin heq =>
      rw [hrec] at hst₀; cases hst₀
      rw [heq] at hrec'; cases hrec'
      exact ⟨rfl, rfl, _, hpend, hto, helig, hwin⟩

/-- **Rotation authority.** In every run of calls by anyone: the authority of an object changes
only by a claim, sent by the address that the latest request named, which was not cancelled and
made at least the minimum delay before, inside the claim window; who can act is the authority,
or the address that the latest claim replaced while that claim is within its grace and not
retired; and every authority was seeded or was requested by a holder of the object's `OpsCap`. -/
theorem authority_governed (hs : Reachable Start (enabled step) s) :
    (∀ a t id g g' st st', enabled step s a t → s.chain.objects id = some g →
      t.chain.objects id = some g' → g.record = some st → g'.record = some st' →
      st'.authority ≠ st.authority →
      a.2 = .claimRotation id ∧ st'.authority = a.1 ∧ ∃ req, (s.past id).request = some req ∧
        req.toAddr = a.1 ∧ req.cancelled = false ∧ req.atMs + minDelayMs ≤ s.chain.now ∧
        s.chain.now ≤ req.eligibleAtMs + claimWindowMs) ∧
    (∀ id g sender, s.chain.objects id = some g → CanAct g s.chain.now sender →
      ∃ st, g.record = some st ∧ (sender = st.authority ∨ ∃ cl, (s.past id).claim = some cl ∧
        sender = cl.replaced ∧ s.chain.now ≤ cl.atMs + prevGraceMs ∧ cl.retired = false)) ∧
    ∀ id g st, s.chain.objects id = some g → g.record = some st →
      (s.past id).seeded = some st.authority ∨ st.authority ∈ (s.past id).requested := by
  have hexp := reachable_explained hs
  have hplaced := reachable_placed (reachable_legacy hs)
  refine ⟨?_, ?_, fun id g st hg hst => (hexp id g st hg hst).authority⟩
  · intro a t id g g' st st' hst hg hg' hrec hrec' hne
    obtain ⟨hcall, hauth, p, hpend, hto, helig, hwin⟩ :=
      claim_of_authority_ne hst hg hg' hrec hrec' hne hplaced
    obtain ⟨-, req, hreq, hname, hlive, heq, hdelay⟩ := (hexp id g st hg hrec).pending p hpend
    exact ⟨hcall, hauth, req, hreq, hname.trans hto.symm, hlive, hdelay.trans helig, heq ▸ hwin⟩
  · intro id g sender hg hact
    obtain ⟨st, hrec, hauth | hgrace⟩ := hact
    · exact ⟨st, hrec, .inl hauth⟩
    · refine ⟨st, hrec, .inr ?_⟩
      unfold prevInGrace at hgrace
      split at hgrace
      · rename_i q hq
        simp only [decide_eq_true_eq] at hgrace
        obtain ⟨cl, hcl, hrep, hlive, huntil⟩ := (hexp id g st hg hrec).prev q hq
        exact ⟨cl, hcl, (hrep.trans hgrace.1).symm, huntil ▸ hgrace.2, hlive⟩
      · cases hgrace

/-- An operator (1) entombs, requests the rotation to a staged key (2), which claims in time; the
key just replaced can still act, nobody else can. -/
theorem authority_governed_rotated :
    ∃ s : RotationHistory Unit, Reachable Start (enabled step) s ∧
      ∃ g, s.chain.objects 0 = some g ∧ (∀ sender, CanAct g s.chain.now sender →
        ∃ st, g.record = some st ∧ (sender = st.authority ∨ ∃ cl, (s.past 0).claim = some cl ∧
          sender = cl.replaced ∧ s.chain.now ≤ cl.atMs + prevGraceMs ∧ cl.retired = false)) ∧
      CanAct g s.chain.now 1 ∧ CanAct g s.chain.now 2 := by
  have hstart : Start (κ := Unit)
      ⟨⟨5, 0, Table.empty, Table.empty⟩, fun _ => .none, []⟩ :=
    ⟨⟨nofun, nofun, rfl, rfl⟩, nofun⟩
  have hreach : Reachable Start (enabled step) _ :=
    ⟨_, [(1, .create), (1, .entombOps 0 ()), (1, .requestRotationOps 0 2 600000 1),
      (3, .tick 700000), (2, .claimRotation 0)], hstart, run_of_execAll rfl⟩
  refine ⟨_, hreach, _, rfl, fun sender => (authority_governed hreach).2.1 0 _ sender rfl, ?_, ?_⟩
  · exact ⟨_, rfl, .inr (by decide)⟩
  · exact ⟨_, rfl, .inl rfl⟩

end RotationHistory

end Podseq.Move
