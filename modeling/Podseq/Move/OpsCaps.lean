import Podseq.Move.RotationHistory
import Podseq.Move.UpgradeCustody

/-! # One steering capability for each object

An `OpsCap` is minted by the entombment of an object, or once by its authority when the object
was entombed before the first `OpsCap`. Both ways leave the mark that both ways look for, so an
object gets one `OpsCap`, and when that is destroyed nothing steers the object again.
-/
namespace Podseq.Move
open Podseq.Lib Rotation

namespace RotationChain

variable {κ : Type} {c c' : RotationChain κ} {sender : Address} {a : RotationCall κ}

/-- The object a call mints an `OpsCap` for. -/
def mintsFor : RotationCall κ → Option ObjectId
  | .entombOps id _ => some id
  | .mintOpsCap id _ => some id
  | _ => none

/-- A mint finds its object without the mark and leaves it with the mark. -/
theorem call_mint {id : ObjectId} (h : c.call sender a = .ok c') (hm : mintsFor a = some id) :
    ∃ g g' recipient, c.objects id = some g ∧ g.opsMinted = false ∧
      c'.objects id = some g' ∧ g'.opsMinted = true ∧ c'.nextId = c.nextId + 1 ∧
      c'.opsCaps =
        Function.update c.opsCaps c.nextId (some (⟨c.nextId, g.id⟩, recipient)) := by
  cases a with
  | entombOps id' k =>
    cases hm
    simp only [call, bind_eq_ok, World.input_eq_ok, entombOps_eq_ok, pure_eq_ok] at h
    obtain ⟨g, hg, _, ⟨-, hunminted, -, rfl⟩, rfl⟩ := h
    exact ⟨g, _, _, hg, hunminted, Function.update_self .., rfl, rfl, rfl⟩
  | mintOpsCap id' recipient =>
    cases hm
    simp only [call, bind_eq_ok, World.input_eq_ok, mintOpsCap_eq_ok, pure_eq_ok] at h
    obtain ⟨g, hg, _, ⟨-, hunminted, rfl⟩, rfl⟩ := h
    exact ⟨g, _, _, hg, hunminted, Function.update_self .., rfl, rfl, rfl⟩
  | _ => cases hm

/-- Apart from mints, the `OpsCap` under an id stays, or its owner moves or destroys it. -/
theorem call_opsCap (h : c.call sender a = .ok c') (hm : mintsFor a = none) (o : ObjectId) :
    c'.opsCaps o = c.opsCaps o ∨ ∃ cap, c.opsCaps o = some (cap, sender) ∧
      (c'.opsCaps o = none ∨ ∃ recipient, c'.opsCaps o = some (cap, recipient)) := by
  cases a with
  | entombOps id k => cases hm
  | mintOpsCap id recipient => cases hm
  | retireOpsCap ops =>
    simp only [call, bind_eq_ok, ownedOps_eq_ok, pure_eq_ok] at h
    obtain ⟨cap, hcap, rfl⟩ := h
    by_cases ho : o = ops
    · subst ho
      exact .inr ⟨cap, hcap, .inl (Function.update_self ..)⟩
    · exact .inl (Function.update_of_ne ho _ _)
  | transferOpsCap ops recipient =>
    simp only [call, bind_eq_ok, ownedOps_eq_ok, pure_eq_ok] at h
    obtain ⟨cap, hcap, rfl⟩ := h
    by_cases ho : o = ops
    · subst ho
      exact .inr ⟨cap, hcap, .inr ⟨recipient, Function.update_self ..⟩⟩
    · exact .inl (Function.update_of_ne ho _ _)
  | _ =>
    left
    have he : c'.opsCaps = c.opsCaps := by
      simp only [call, bind_eq_ok, pure_eq_ok] at h
      grind [put]
    rw [he]

end RotationChain

namespace RotationHistory

open RotationChain (mintsFor)

variable {κ : Type} {s t u : RotationHistory κ} {a : Address × RotationCall κ} {id : ObjectId}

theorem recordMint_of_none {call : RotationCall κ} (hm : mintsFor call = none) :
    s.recordMint call = s.minted := by
  cases call with
  | entombOps id k => cases hm
  | mintOpsCap id recipient => cases hm
  | _ => rfl

theorem recordMint_of_some {call : RotationCall κ} (hm : mintsFor call = some id) :
    s.recordMint call = ⟨s.chain.nextId, id⟩ :: s.minted := by
  cases call with
  | entombOps id k => cases hm; rfl
  | mintOpsCap id recipient => cases hm; rfl
  | _ => cases hm

/-- The mark of an object is never taken off. -/
theorem step_marked (hp : s.chain.Placed) (hst : enabled step s a t) {g : Guarded κ}
    (hg : s.chain.objects id = some g) (hm : g.opsMinted = true) :
    ∃ g', t.chain.objects id = some g' ∧ g'.opsMinted = true := by
  obtain ⟨sender, call⟩ := a
  obtain ⟨hcall, -, -⟩ := step_cases hst
  obtain ⟨g', hg', rfl | hmoves⟩ := RotationChain.object_next hcall hp hg
  · exact ⟨g', hg', hm⟩
  · refine ⟨g', hg', ?_⟩
    cases hmoves with
    | entomb _ _ heq => rw [heq]
    | mint _ _ _ heq => rw [heq]
    | request _ _ _ _ heq => rw [heq]; exact hm
    | cancel _ _ heq => rw [heq]; exact hm
    | claim _ _ _ _ _ heq => rw [heq]; exact hm
    | retire _ _ heq => rw [heq]; exact hm

/-! ## The invariant -/

/-- Every `OpsCap` that exists was minted, under the id it is kept at; an object with a minted
`OpsCap` carries the mark; and no two were minted for one object. -/
structure Counted (s : RotationHistory κ) : Prop where
  live : ∀ o cap owner, s.chain.opsCaps o = some (cap, owner) → cap ∈ s.minted ∧ cap.id = o
  fresh : ∀ cap ∈ s.minted, cap.id < s.chain.nextId
  marked : ∀ cap ∈ s.minted, ∃ g, s.chain.objects cap.forId = some g ∧ g.opsMinted = true
  nodup : (s.minted.map OpsCap.forId).Nodup

theorem Counted.step (hp : s.chain.Placed) (h : Counted s) (hst : enabled step s a t) :
    Counted t := by
  obtain ⟨hcall, -, hminted⟩ := step_cases hst
  have hmarked : ∀ cap ∈ s.minted, ∃ g, t.chain.objects cap.forId = some g ∧
      g.opsMinted = true := by
    intro cap hc
    obtain ⟨g, hg, hmark⟩ := h.marked cap hc
    exact step_marked hp hst hg hmark
  cases hm : mintsFor a.2 with
  -- without a mint the caps only change hands, or go
  | none =>
    rw [recordMint_of_none hm] at hminted
    rw [← hminted] at hmarked
    refine ⟨fun o cap owner ho => ?_, fun cap hc => ?_, hmarked, ?_⟩
    · rw [hminted]
      obtain he | ⟨cap₀, hcap, he | ⟨recipient, he⟩⟩ := RotationChain.call_opsCap hcall hm o
      · exact h.live o cap owner (he ▸ ho)
      · rw [he] at ho; cases ho
      · rw [he] at ho; cases ho
        exact h.live o cap _ hcap
    · rw [hminted] at hc
      exact (h.fresh cap hc).trans_le (RotationChain.call_nextId hcall)
    · rw [hminted]; exact h.nodup
  -- the mint marks its object, which was unmarked until then
  | some id =>
    obtain ⟨g, g', recipient, hg, hunminted, hg', hmark, hnext, hcaps⟩ :=
      RotationChain.call_mint hcall hm
    rw [recordMint_of_some hm] at hminted
    refine ⟨fun o cap owner ho => ?_, fun cap hc => ?_, fun cap hc => ?_, ?_⟩
    · rw [hcaps] at ho
      rw [hminted]
      by_cases hn : o = s.chain.nextId
      · subst hn
        rw [Function.update_self, (hp id g hg).1] at ho
        cases ho
        exact ⟨List.mem_cons_self, rfl⟩
      · rw [Function.update_of_ne hn] at ho
        obtain ⟨hmem, hid⟩ := h.live o cap owner ho
        exact ⟨List.mem_cons_of_mem _ hmem, hid⟩
    · rw [hminted] at hc
      rw [hnext]
      rcases List.mem_cons.1 hc with rfl | hold
      · exact Nat.lt_succ_self _
      · exact (h.fresh cap hold).trans (Nat.lt_succ_self _)
    · rw [hminted] at hc
      rcases List.mem_cons.1 hc with rfl | hold
      · exact ⟨g', hg', hmark⟩
      · exact hmarked cap hold
    · rw [hminted, List.map_cons, List.nodup_cons]
      refine ⟨fun hmem => ?_, h.nodup⟩
      obtain ⟨cap, hc, hfor⟩ := List.mem_map.1 hmem
      obtain ⟨g₀, hg₀, hmark₀⟩ := h.marked cap hc
      rw [hfor, hg] at hg₀
      cases hg₀
      rw [hunminted] at hmark₀
      cases hmark₀

theorem reachable_counted (h : Reachable Legacy (enabled step) s) : Counted s := by
  refine h.inv_of (I := Counted) (J := fun s => s.chain.Placed)
    (fun _ hs => reachable_placed hs) ?_ (fun s a t hp _ hc hst => hc.step hp hst)
  intro s hs
  refine ⟨fun o cap owner ho => ?_, fun cap hc => ?_, fun cap hc => ?_, ?_⟩
  · rw [hs.opsCaps] at ho; cases ho
  · rw [hs.minted] at hc; cases hc
  · rw [hs.minted] at hc; cases hc
  · rw [hs.minted]; exact List.nodup_nil

/-- Two `OpsCap`s minted for one object are the same one. -/
theorem Counted.eq_of_forId (h : Counted s) {cap cap' : OpsCap} (hc : cap ∈ s.minted)
    (hc' : cap' ∈ s.minted) (heq : cap'.forId = cap.forId) : cap' = cap :=
  List.inj_on_of_nodup_map h.nodup hc' hc heq

/-! ## After the end of a capability -/

/-- The `OpsCap` was minted and is no more. -/
def Gone (cap : OpsCap) (s : RotationHistory κ) : Prop :=
  cap ∈ s.minted ∧ s.chain.opsCaps cap.id = none

/-- Ids are never reused, so it does not come back. -/
theorem Gone.kept {cap : OpsCap} (h : Gone cap s) (hc : Counted s) (hst : enabled step s a t) :
    Gone cap t := by
  obtain ⟨hcall, -, hminted⟩ := step_cases hst
  obtain ⟨hmem, hnone⟩ := h
  cases hm : mintsFor a.2 with
  | none =>
    refine ⟨by rw [hminted, recordMint_of_none hm]; exact hmem, ?_⟩
    obtain he | ⟨cap₀, hcap, -⟩ := RotationChain.call_opsCap hcall hm cap.id
    · rw [he]; exact hnone
    · rw [hnone] at hcap; cases hcap
  | some id =>
    refine ⟨by rw [hminted, recordMint_of_some hm]; exact List.mem_cons_of_mem _ hmem, ?_⟩
    obtain ⟨_, _, _, _, _, _, _, _, hcaps⟩ := RotationChain.call_mint hcall hm
    have hne : cap.id ≠ s.chain.nextId := Nat.ne_of_lt (hc.fresh cap hmem)
    rw [hcaps, Function.update_of_ne hne]; exact hnone

theorem Gone.run {cap : OpsCap} {as : List (Address × RotationCall κ)}
    (hrun : Run (enabled step) t as u) (ht : Reachable Legacy (enabled step) t)
    (h : Gone cap t) : Gone cap u := by
  induction hrun with
  | nil => exact h
  | cons hst _ ih => exact ih (ht.next hst) (h.kept (reachable_counted ht) hst)

theorem retire_gone {sender : Address} {ops : ObjectId} {cap : OpsCap} (hc : Counted s)
    (hcap : s.chain.opsCaps ops = some (cap, sender))
    (hst : enabled step s (sender, .retireOpsCap ops) t) : Gone cap t := by
  obtain ⟨hcall, -, hminted⟩ := step_cases hst
  obtain ⟨hmem, hid⟩ := hc.live ops cap sender hcap
  refine ⟨by rw [hminted]; exact hmem, ?_⟩
  simp only [RotationChain.call, bind_eq_ok, RotationChain.ownedOps_eq_ok, pure_eq_ok] at hcall
  obtain ⟨-, -, heq⟩ := hcall
  rw [← heq, hid]
  exact Function.update_self ..

/-- No `OpsCap` of an object is left when the one minted for it is gone. -/
theorem Gone.none_left {cap : OpsCap} (h : Gone cap s) (hc : Counted s) {ops : ObjectId}
    {cap' : OpsCap} {sender : Address} (hcap' : s.chain.opsCaps ops = some (cap', sender)) :
    cap'.forId ≠ cap.forId := by
  intro heq
  obtain ⟨hmem, hid⟩ := hc.live ops cap' sender hcap'
  have hsame := hc.eq_of_forId h.1 hmem heq
  rw [← hid, hsame, h.2] at hcap'
  cases hcap'

/-! ## Steering -/

variable {υ τ ρ : Type}

/-- The `OpsCap` lets a steering call on the object through: a request, a window change or a
call on the upgrade custody of a Registry, or a request on a Vault. -/
def Steers (fw : UpgradeFramework υ τ ρ) (now : Nat) (cap : OpsCap) (id : ObjectId) : Prop :=
  (∃ (r : RegistryCustody υ) (inbox : Inbox) (call : Settlement.SteeringCall υ ρ)
      (x : RegistryCustody υ × Inbox), r.registry.uid.id = id ∧
      Settlement.steer fw r inbox now cap call = .ok x) ∨
    ∃ (v v' : Vault) (toAddr : Address) (delayMs : Nat), v.uid.id = id ∧
      v.requestRotationOps now toAddr delayMs cap = .ok v'

theorem Steers.forId {fw : UpgradeFramework υ τ ρ} {now : Nat} {cap : OpsCap}
    (h : Steers fw now cap id) : cap.forId = id := by
  obtain ⟨r, inbox, call, x, rfl, hok⟩ | ⟨v, v', toAddr, delayMs, rfl, hok⟩ := h
  · exact Settlement.steer_forId hok
  · simp only [Vault.requestRotationOps, bind_eq_ok, requestRotationOps_eq_ok] at hok
    obtain ⟨-, ⟨hid, -⟩, -⟩ := hok
    exact hid

/-- **One steering capability for each object.** In every run of calls by anyone, on objects
entombed before or after the first `OpsCap`: no two `OpsCap`s are ever minted for one object; a
steering call on an object goes through with the `OpsCap` minted for it only; and after that one
is retired, no `OpsCap` in anyone's hands lets such a call through again. -/
theorem one_steering_capability (fw : UpgradeFramework υ τ ρ)
    (hs : Reachable Legacy (enabled step) s) :
    (s.minted.map OpsCap.forId).Nodup ∧
    (∀ ops cap sender id, s.chain.opsCaps ops = some (cap, sender) →
      Steers fw s.chain.now cap id →
      cap.forId = id ∧ ∀ cap' ∈ s.minted, cap'.forId = id → cap' = cap) ∧
    ∀ ops cap sender t as u, s.chain.opsCaps ops = some (cap, sender) →
      enabled step s (sender, .retireOpsCap ops) t → Run (enabled step) t as u →
      ∀ ops' cap' sender', u.chain.opsCaps ops' = some (cap', sender') →
        ¬ Steers fw u.chain.now cap' cap.forId := by
  have hc := reachable_counted hs
  refine ⟨hc.nodup, ?_, ?_⟩
  · intro ops cap sender id hcap hsteers
    have hid := hsteers.forId
    refine ⟨hid, fun cap' hc' hfor => ?_⟩
    exact hc.eq_of_forId (hc.live ops cap sender hcap).1 hc' (hfor.trans hid.symm)
  · intro ops cap sender t as u hcap hst hrun ops' cap' sender' hcap' hsteers
    have ht := hs.next hst
    have hgone := (retire_gone hc hcap hst).run hrun ht
    exact hgone.none_left (reachable_counted (ht.extend hrun)) hcap' hsteers.forId

/-- A Registry (0) from before the first `OpsCap`: its authority (7) mints the cap to a cold
wallet (8), which retires it. -/
theorem one_steering_capability_legacy :
    ∃ s t : RotationHistory Unit, Reachable Legacy (enabled step) s ∧
      enabled step s (8, .retireOpsCap 1) t ∧ t.minted = [⟨1, 0⟩] ∧
      ∀ as u, Run (enabled step) t as u → ∀ ops' cap' sender',
        u.chain.opsCaps ops' = some (cap', sender') →
        ¬ Steers (υ := Nat) (τ := Unit) (ρ := Unit)
          ⟨128, 192, fun cap _ _ => .ok (cap, ()), fun cap _ => .ok cap, .ok, .ok⟩
          u.chain.now cap' 0 := by
  have hstart : Legacy (κ := Unit) ⟨⟨5, 1, Function.update Table.empty 0
      (some ⟨0, some ⟨7, none, none⟩, some (), false⟩), Table.empty⟩, fun _ => .none, []⟩ := by
    refine ⟨fun id g hg => ?_, fun id g hg => ?_, rfl, rfl⟩
    · by_cases hn : id = 0
      · subst hn; cases hg; exact ⟨rfl, by decide⟩
      · simp [Function.update_of_ne hn] at hg
    · by_cases hn : id = 0
      · subst hn; cases hg; rfl
      · simp [Function.update_of_ne hn] at hg
  have hreach : Reachable Legacy (enabled step) _ :=
    ⟨_, [(7, .mintOpsCap 0 8)], hstart, run_of_execAll rfl⟩
  refine ⟨_, _, hreach, rfl, rfl, fun as u hrun => ?_⟩
  exact (one_steering_capability (υ := Nat) _ hreach).2.2 1 ⟨1, 0⟩ 8 _ as u rfl rfl hrun

end RotationHistory

end Podseq.Move
