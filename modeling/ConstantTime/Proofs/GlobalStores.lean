/-
The findings of global storage are exact.

A store is reported only if the stored value is secret and has a chain. The second condition never
decides: at every step of the rounds a secret has a chain, since each instruction and each join
keeps taints coherent. So there is one finding at each store of a secret into global memory,
reachable or not, and no other.
-/
import ConstantTime.Proofs.FindingPlaces
import ConstantTime.Proofs.Steps

set_option autoImplicit false

namespace ConstantTime

/-! ## Stores of secrets

What is reported is said of the function and its taints, without the rule. The findings then
correspond to these stores one by one. -/

/-- A store of a secret into global memory. -/
structure Placed.StoresSecret (m : Module) (f : Function) (t : Taints) (p : Placed) : Prop where
  op : p.instr.op = .store
  value : ∃ v, p.instr.inputs.head? = some v ∧ (t.of (some v)).label = .secret
  location : ∃ l, p.instr.location.bind (m.locationsFor f).get? = some l ∧ l.storage = .global

namespace Context

variable {c : Context}

/-- A finding of global storage at an instruction. -/
structure IsStoreFinding (c : Context) (p : Placed) (x : Finding) : Prop where
  rule : x.rule = .globalStorage
  function : x.function = c.function.id
  block : x.block = p.block.id
  index : x.index = p.index

/-- What a finding of this rule says about its store. -/
theorem isStoreFinding_of_finding {p : Placed} {chain : List String} {description : String}
    {detail : Detail} {x : Finding}
    (h : c.finding .globalStorage p.block.id p.index chain description detail = .ok x) :
    c.IsStoreFinding p x := by
  have hat := isFindingAt_of_finding h
  exact ⟨hat.rule, hat.function, congrArg Prod.fst hat.place, congrArg Prod.snd hat.place⟩

theorem IsStoreFinding.place {p : Placed} {x : Finding} (h : c.IsStoreFinding p x) :
    x.instrPlace = p.place :=
  Prod.ext h.block h.index

/-- A finding is given for a store of a secret into global memory. -/
theorem storesSecret_of_storeFinding? {p : Placed} (hop : p.instr.op = .store) {x : Finding}
    (h : c.storeFinding? (c.module.locationsFor c.function) p = .ok (some x)) :
    p.StoresSecret c.module c.function c.taints ∧ c.IsStoreFinding p x := by
  unfold storeFinding? at h
  split at h
  · cases h
  · next l hl =>
    split at h
    · next hglobal =>
      split at h
      · cases h
      · next v rest hinputs =>
        unfold secretStoreFinding? at h
        dsimp only at h
        split at h
        · next hsecret =>
          obtain ⟨y, hy, heq⟩ := exists_of_map_eq_ok h
          cases heq
          have hvalue : p.instr.inputs.head? = some v := by rw [hinputs, List.head?_cons]
          exact ⟨⟨hop, ⟨v, hvalue, of_decide_eq_true hsecret.1⟩, ⟨l, hl, hglobal⟩⟩,
            isStoreFinding_of_finding hy⟩
        · cases h
    · cases h

/-- Every store of a secret into global memory gives a finding: its chain is not empty. -/
theorem exists_finding_of_storesSecret (hc : c.taints.values.Coherent) {p : Placed}
    (hp : p ∈ c.function.placed) (h : p.StoresSecret c.module c.function c.taints) :
    ∃ x, c.storeFinding? (c.module.locationsFor c.function) p = .ok (some x) := by
  obtain ⟨v, hv, hsecret⟩ := h.value
  obtain ⟨l, hl, hglobal⟩ := h.location
  obtain ⟨rest, hinputs⟩ := List.head?_eq_some_iff.1 hv
  have horigin : (c.taints.of (some v)).hasOrigin = true := by
    apply Taint.hasOrigin_iff.2
    exact (hc.ofValue v).secret hsecret
  obtain ⟨hb, -⟩ := Function.mem_placed_iff.1 hp
  obtain ⟨x, hx⟩ := exists_finding (c := c) hb .globalStorage p.index (c.taints.of (some v)).chain
    ("Secret value '" ++ v ++ "' stored to global location '" ++ l.id ++ "'") (.global l.id)
  refine ⟨x, ?_⟩
  simp only [storeFinding?, hl, hglobal, if_true, hinputs, secretStoreFinding?, horigin,
    Taint.isSecret, hsecret, decide_true, and_self, hx]
  rfl

/-- A finding stands at a store of a secret into global memory. -/
theorem storesSecret_of_mem_globalStores {found : List Finding}
    (hfound : c.globalStores = .ok found) {x : Finding} (hx : x ∈ found) :
    ∃ p ∈ c.function.placed, p.StoresSecret c.module c.function c.taints ∧
      c.IsStoreFinding p x := by
  obtain ⟨p, hp, hfinding⟩ := (mem_collectSome_iff hfound).1 hx
  rw [List.mem_filter, decide_eq_true_iff] at hp
  exact ⟨p, hp.1, storesSecret_of_storeFinding? hp.2 hfinding⟩

/-- No place has two findings, because no two stores share a place. -/
theorem nodup_places_of_globalStores (hf : (c.function.blocks.map Block.id).Nodup)
    {found : List Finding} (hfound : c.globalStores = .ok found) :
    (found.map Finding.instrPlace).Nodup := by
  have hsublist := map_sublist_of_collectSome Placed.place Finding.instrPlace hfound ?_
  · exact ((Function.nodup_places hf).sublist (List.filter_sublist.map _)).sublist hsublist
  · intro p hp x hx
    rw [List.mem_filter, decide_eq_true_iff] at hp
    obtain ⟨-, hat⟩ := storesSecret_of_storeFinding? hp.2 hx
    exact hat.place

/-- Findings at the stores of secrets into global memory, one at each, and nowhere else. -/
structure ReportsStores (c : Context) (found : List Finding) : Prop where
  only : ∀ x ∈ found, ∃ p ∈ c.function.placed, p.StoresSecret c.module c.function c.taints ∧
    c.IsStoreFinding p x
  once : ∀ p ∈ c.function.placed, p.StoresSecret c.module c.function c.taints →
    (found.countP fun x => x.block = p.block.id ∧ x.index = (p.index : Int)) = 1
  none : ∀ p ∈ c.function.placed, ¬ p.StoresSecret c.module c.function c.taints →
    (found.countP fun x => x.block = p.block.id ∧ x.index = (p.index : Int)) = 0

/-- **The findings of global storage are exact**, where taints are coherent. -/
theorem exists_reportsStores (hm : c.module.WellFormed) (hf : c.function ∈ c.module.functions)
    (hc : c.taints.values.Coherent) :
    ∃ found, c.globalStores = .ok found ∧ c.ReportsStores found := by
  obtain ⟨found, hfound⟩ := exists_globalStores hm hf
  have hblocks := (hm.function _ hf).blocks
  refine ⟨found, hfound, fun x hx => storesSecret_of_mem_globalStores hfound hx,
    fun p hp hstores => ?_, fun p hp hstores => ?_⟩
  · obtain ⟨x, hx⟩ := exists_finding_of_storesSecret hc hp hstores
    have hmem : x ∈ found :=
      (mem_collectSome_iff hfound).2 ⟨p, List.mem_filter.2 ⟨hp, decide_eq_true hstores.op⟩, hx⟩
    obtain ⟨-, hat⟩ := storesSecret_of_storeFinding? hstores.op hx
    exact countP_place_eq_one (nodup_places_of_globalStores hblocks hfound) hmem hat.place
  · refine countP_place_eq_zero fun x hx hplace => hstores ?_
    obtain ⟨q, hq, hqstores, hqat⟩ := storesSecret_of_mem_globalStores hfound hx
    -- the store of the finding stands at the same place, so it is the same one
    rw [Function.eq_of_place_eq hblocks hp hq (hplace.symm.trans hqat.place)]
    exact hqstores

end Context

/-! ## Functions of a validated module

The statement for callers. In the sample the store is in a block that no path leads to; it is
reported like any other. -/

namespace Taints

/-- A function that writes a key to a log, in a block that no way leads to. -/
def leak : Function :=
  ⟨"leak",
    [⟨"entry", [⟨.ret, [], none, [], none, none⟩]⟩,
      ⟨"dead", [⟨.store, ["key"], none, [], some "log", none⟩, ⟨.ret, [], none, [], none, none⟩]⟩],
    [⟨"key", .secret⟩], none, []⟩

def leaking : Module := ⟨"leaking", [leak], [⟨"log", .global, none, false⟩]⟩

theorem validate_leaking : leaking.validate = .ok () := rfl

theorem leak_mem_leaking : leak ∈ leaking.functions := List.mem_singleton.2 rfl

/-- **No secret is without a chain, so no store of a secret is missed.** Between any two visits and
between any two instructions all taints are coherent; and the findings of global storage are those
of the stores of secrets into global memory. -/
theorem exists_coherent_reportsStores {m : Module} (hm : m.validate = .ok ()) {f : Function}
    (hf : f ∈ m.functions) :
    ∃ g t, FlowGraph.ofFunction f = .ok g ∧ ofFunction m f g = .ok t ∧
      (∀ n done, done <+: order g →
        (stateAt m f g n done).Coherent ∧
          ∀ b ∈ f.blocks, done ++ [b.id] <+: order g → ∀ before, before <+: b.instrs →
            (pointAt m f g n done b before).values.Coherent ∧
              (pointAt m f g n done b before).memory.Coherent) ∧
      (t.values = (stateAt m f g t.rounds []).values ∧
        t.memoryIn = (stateAt m f g t.rounds []).memoryIn) ∧
      ∀ c : Context, c.module = m → c.function = f → c.taints = t →
        ∃ found, c.globalStores = .ok found ∧ c.ReportsStores found := by
  have hwf := Module.wellFormed_of_validate hm
  obtain ⟨g, t, hg, ht, hleast, -⟩ := exists_least hwf hf
  refine ⟨g, t, hg, ht, fun n done hdone => ⟨?_, fun b _ _ before _ => ?_⟩,
    eq_stateAt_of_ofFunction ht, ?_⟩
  · exact coherent_stateAt (hwf.function f hf) hg n hdone
  · exact coherent_pointAt (hwf.function f hf) hg n hdone b before
  · rintro c rfl rfl rfl
    exact Context.exists_reportsStores hwf hf hleast.values

/-- The flow graph of the function that leaks a key. -/
def leakGraph : FlowGraph := ⟨"entry", ⟨[("entry", []), ("dead", [])]⟩, ["entry", "dead"]⟩

/-- The instruction that leaks it. -/
def leakStore : Placed :=
  ⟨⟨"dead", [⟨.store, ["key"], none, [], some "log", none⟩, ⟨.ret, [], none, [], none, none⟩]⟩, 0,
    ⟨.store, ["key"], none, [], some "log", none⟩⟩

theorem ofFunction_leak : FlowGraph.ofFunction leak = .ok leakGraph := by rfl

/-- The store of the key is reported once, although no way leads to it. -/
theorem exists_coherent_reportsStores_leaking :
    leaking.validate = .ok () ∧ leak ∈ leaking.functions ∧
    ∃ g t, FlowGraph.ofFunction leak = .ok g ∧ ofFunction leaking leak g = .ok t ∧
      (stateAt leaking leak g 0 (order g)).Coherent ∧
      ∀ c : Context, c.module = leaking → c.function = leak → c.taints = t →
        ∃ found, c.globalStores = .ok found ∧
          (found.countP fun x => x.block = "dead" ∧ x.index = (0 : Int)) = 1 := by
  obtain ⟨g, t, hg, ht, hcoherent, -, hreports⟩ :=
    exists_coherent_reportsStores validate_leaking leak_mem_leaking
  refine ⟨validate_leaking, leak_mem_leaking, g, t, hg, ht,
    (hcoherent 0 (order g) (List.prefix_refl _)).1, ?_⟩
  intro c hmodule hfunction htaints
  obtain ⟨found, hfound, hexact⟩ := hreports c hmodule hfunction htaints
  have hkey : (t.of (some "key")).label = .secret := by
    cases hg.symm.trans ofFunction_leak
    have hvalue : (ofFunction leaking leak leakGraph).map (fun t => (t.of (some "key")).label) =
        .ok .secret := by rfl
    rw [ht] at hvalue
    exact Except.ok.inj hvalue
  have hstores : leakStore.StoresSecret leaking leak t :=
    ⟨rfl, ⟨"key", rfl, hkey⟩, ⟨⟨"log", .global, none, false⟩, rfl, rfl⟩⟩
  refine ⟨found, hfound, hexact.once leakStore ?_ ?_⟩
  · rw [hfunction]
    exact List.mem_cons_of_mem _ List.mem_cons_self
  · rw [hmodule, hfunction, htaints]
    exact hstores

end Taints

end ConstantTime
