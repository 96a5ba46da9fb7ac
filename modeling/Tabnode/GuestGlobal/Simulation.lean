import Tabnode.GuestGlobal.Ordinary

/-!
# The proxy in step with an ordinary object

While no operation lands on the realm, a guest's global is in step with an ordinary object
of its process (`Sim`): each trap leaves and answers what the operation does there, and
contradicts the proxy's target nowhere.
-/

namespace Tabnode

namespace GuestGlobal

open Ordinary PropertyMap
open OrderedMap hiding set

variable {α β : Type*}

abbrev processKey : Key := .name "process"

/-- The guest's global is in step with an ordinary object. -/
structure Sim (r : Realm α β) (p : ℕ) (g : Guest α β) (o : Ordinary α β) : Prop where
  find : ∀ k, k ≠ processKey → OrderedMap.find k o.own = at? r p g k
  held : o.held = g.held
  untouched : ¬ g.Touched processKey
  process : processKey ∈ keys o.own ↔ processKey ∈ keys r.own
  apart : ∀ k ∈ g.removed, OrderedMap.find k g.target = none
  starts : ∀ k, (Guest.new r).Touched k → g.Touched k
  inherits : ∀ k, Inherits r k → k ∉ g.removed
  nodupOwn : (keys o.own).Nodup
  nodupTarget : (keys g.target).Nodup

variable {r : Realm α β} {p : ℕ} {g : Guest α β} {o : Ordinary α β} {k : Key}

/-! ## What is at a name -/

theorem at?_of_target {property : Property (Value α β) (Fn β)}
    (h : OrderedMap.find k g.target = some property) : at? r p g k = some property := by
  rw [at?, h]
  rfl

theorem at?_of_absent (h : OrderedMap.find k g.target = none) :
    at? r p g k = (standingProperty r p g k).map (asValue (standing r p k)) := by
  rw [at?, h]
  rfl

theorem standingProperty_removed (h : k ∈ g.removed) : standingProperty r p g k = none :=
  if_pos (.inl h)

theorem standingProperty_congr {g' : Guest α β} (hremoved : k ∈ g'.removed ↔ k ∈ g.removed)
    (hstart : g'.hostAtStart = g.hostAtStart) :
    standingProperty r p g' k = standingProperty r p g k := by
  simp only [standingProperty, hremoved, hstart]

theorem keys_localGlobals : keys (localGlobals : Globals α β) =
    localNames ++ nodeGlobalAccessors.map fun e => .name e.1 := rfl

theorem touched_iff : g.Touched k ↔ OrderedMap.find k g.target ≠ none ∨ k ∈ g.removed := by
  rw [Guest.Touched, Ne, find_eq_none_iff, not_not]

theorem Sim.find_target (h : Sim r p g o) (hk : k ≠ processKey)
    {property : Property (Value α β) (Fn β)} (hfind : OrderedMap.find k g.target = some property) :
    OrderedMap.find k o.own = some property := (h.find k hk).trans (at?_of_target hfind)

theorem Sim.find_removed (h : Sim r p g o) (hk : k ≠ processKey) (hremoved : k ∈ g.removed) :
    OrderedMap.find k o.own = none := by
  rw [h.find k hk, at?_of_absent (h.apart k hremoved), standingProperty_removed hremoved]
  rfl

theorem Sim.not_local (h : Sim r p g o) (hno : ¬ g.Touched k) : k ∉ localNames := by
  intro hlocal
  refine hno (h.starts k (.inl ?_))
  rw [Guest.new, keys_localGlobals]
  exact List.mem_append_left _ hlocal

theorem Sim.standingProperty_eq (h : Sim r p g o) (hk : k ≠ processKey) (hno : ¬ g.Touched k) :
    standingProperty r p g k =
      if k ∈ nodeGlobals then
        some ⟨.data (standing r p k) true, decide (k ≠ .name "globalThis"), true⟩
      else
        (OrderedMap.find k r.own).map fun property =>
          if property.enumerable ∧ k ∈ g.hostAtStart ∧ k ∉ nodeEnumerableGlobals then
            { property with configurable := true, enumerable := false }
          else { property with configurable := true } := by
  rw [standingProperty, if_neg (not_or.2 ⟨fun hr => hno (.inr hr), h.not_local hno⟩), if_neg hk]

theorem Sim.find_untouched (h : Sim r p g o) (hk : k ≠ processKey) (hno : ¬ g.Touched k) :
    OrderedMap.find k o.own = (standingProperty r p g k).map (asValue (standing r p k)) := by
  rw [h.find k hk, at?_of_absent]
  by_contra hne
  exact hno (touched_iff.2 (.inl hne))

theorem Sim.find_nodeGlobal (h : Sim r p g o) (hk : k ≠ processKey) (hno : ¬ g.Touched k)
    (hnode : k ∈ nodeGlobals) : OrderedMap.find k o.own =
      some ⟨.data (standing r p k) true, decide (k ≠ .name "globalThis"), true⟩ := by
  rw [h.find_untouched hk hno, h.standingProperty_eq hk hno, if_pos hnode]
  rfl

theorem Sim.find_realm (h : Sim r p g o) (hk : k ≠ processKey) (hno : ¬ g.Touched k)
    (hnode : k ∉ nodeGlobals) :
    OrderedMap.find k r.own = none ∧ OrderedMap.find k o.own = none ∨
      ∃ q w e, OrderedMap.find k r.own = some q ∧
        (∀ v w', q.content = .data v w' → w = w') ∧
        standingProperty r p g k = some { q with enumerable := e, configurable := true } ∧
        OrderedMap.find k o.own = some ⟨.data (standing r p k) w, e, true⟩ := by
  rw [h.find_untouched hk hno, h.standingProperty_eq hk hno, if_neg hnode]
  cases hq : OrderedMap.find k r.own with
  | none => exact .inl ⟨rfl, rfl⟩
  | some q =>
    obtain ⟨content, e, c⟩ := q
    refine .inr ⟨⟨content, e, c⟩,
      match content with | .data _ w => w | .accessor _ _ => true,
      if e ∧ k ∈ g.hostAtStart ∧ k ∉ nodeEnumerableGlobals then false else e, rfl, ?_, ?_, ?_⟩
    · rintro v w' rfl
      rfl
    · simp only [Option.map_some]
      split <;> rfl
    · cases content <;> simp only [Option.map_some] <;> split <;> rfl

theorem Sim.inherits_iff (h : Sim r p g o) (hno : ¬ g.Touched k) (hnode : k ∉ nodeGlobals)
    (hown : k ∉ keys r.own) : Inherits r k ↔ r.Has k := by
  have hnew : ¬ (Guest.new r).Touched k := fun ht => hno (h.starts k ht)
  rw [Guest.Touched, not_or] at hnew
  constructor
  · exact fun hi => .inr hi.1
  · intro hhas
    exact ⟨hhas.resolve_left hown, hown, hnew.1, hnode, hnew.2⟩

/-! ## Changes -/

theorem Sim.put (h : Sim r p g o) (hk : k ≠ processKey) (property : Property (Value α β) (Fn β))
    {g' : Guest α β} (htarget : g'.target = OrderedMap.set k property g.target)
    (hremoved : ∀ j, j ∈ g'.removed ↔ j ∈ g.removed ∧ j ≠ k) (hheld : g'.held = g.held)
    (hstart : g'.hostAtStart = g.hostAtStart) :
    Sim r p g' ⟨OrderedMap.set k property o.own, o.held⟩ where
  find j hj := by
    by_cases hjk : k = j
    · subst hjk
      have hfind : OrderedMap.find k g'.target = some property := by
        rw [htarget, find_set_self]
      rw [find_set_self, at?_of_target hfind]
    · have hsame : OrderedMap.find j g'.target = OrderedMap.find j g.target := by
        rw [htarget, find_set_ne hjk]
      have hrem : j ∈ g'.removed ↔ j ∈ g.removed := by
        rw [hremoved, and_iff_left (Ne.symm hjk)]
      rw [find_set_ne hjk, h.find j hj, at?, at?, hsame,
        standingProperty_congr hrem hstart]
  held := by rw [hheld, h.held]
  untouched := by
    rw [touched_iff, htarget, find_set_ne hk, hremoved]
    rintro (hne | hr)
    · exact h.untouched (touched_iff.2 (.inl hne))
    · exact h.untouched (.inr hr.1)
  process := by
    rw [mem_keys_set, or_iff_right (Ne.symm hk)]
    exact h.process
  apart j hj := by
    obtain ⟨hj, hjk⟩ := (hremoved j).1 hj
    rw [htarget, find_set_ne (Ne.symm hjk)]
    exact h.apart j hj
  starts j hj := by
    rw [Guest.Touched, htarget, mem_keys_set, hremoved]
    by_cases hjk : j = k
    · exact .inl (.inl hjk)
    · exact (h.starts j hj).imp .inr fun hr => ⟨hr, hjk⟩
  inherits j hj := fun hr => h.inherits j hj ((hremoved j).1 hr).1
  nodupOwn := nodup_set h.nodupOwn
  nodupTarget := by
    rw [htarget]
    exact nodup_set h.nodupTarget

theorem Sim.drop (h : Sim r p g o) (hk : k ≠ processKey) (hinherits : ¬ Inherits r k) :
    Sim r p { g with target := erase k g.target, removed := k :: g.removed }
      ⟨erase k o.own, o.held⟩ where
  find j hj := by
    rw [find_erase]
    by_cases hjk : k = j
    · subst hjk
      have hnone : OrderedMap.find k (erase k g.target) = none := by
        rw [find_erase, if_pos rfl]
      rw [if_pos rfl, at?_of_absent hnone, standingProperty_removed List.mem_cons_self]
      rfl
    · have hrem : j ∈ k :: g.removed ↔ j ∈ g.removed := by
        rw [List.mem_cons, or_iff_right (Ne.symm hjk)]
      have hstanding : standingProperty r p { g with
          target := erase k g.target, removed := k :: g.removed } j =
            standingProperty r p g j := standingProperty_congr hrem rfl
      rw [if_neg hjk, h.find j hj, at?, at?, find_erase, if_neg hjk, hstanding]
  held := h.held
  untouched := by
    rw [touched_iff, find_erase, if_neg hk, List.mem_cons, or_iff_right (Ne.symm hk),
      ← touched_iff]
    exact h.untouched
  process := by
    have hsame : processKey ∈ keys (erase k o.own) ↔
        processKey ∈ keys o.own := by
      rw [mem_keys_iff, mem_keys_iff, find_erase, if_neg hk]
    rw [hsame]
    exact h.process
  apart j hj := by
    rw [find_erase]
    split
    · rfl
    · rename_i hjk
      exact h.apart j ((List.mem_cons.1 hj).resolve_left (Ne.symm hjk))
  starts j hj := by
    rw [touched_iff, find_erase, List.mem_cons]
    by_cases hjk : k = j
    · exact .inr (.inl hjk.symm)
    · rw [if_neg hjk]
      exact (touched_iff.1 (h.starts j hj)).imp_right .inr
  inherits j hj hr := by
    rcases List.mem_cons.1 hr with rfl | hr
    · exact hinherits hj
    · exact h.inherits j hj hr
  nodupOwn := nodup_erase h.nodupOwn
  nodupTarget := nodup_erase h.nodupTarget

section

variable [DecidableEq α] [DecidableEq β]

theorem Sim.define (h : Sim r p g o) (hk : k ≠ processKey)
    (hsame : OrderedMap.find k g.target = OrderedMap.find k o.own) (hr : k ∉ g.removed)
    (d : Descriptor (Value α β) (Fn β)) :
    (g.target.define .undefined k d).2 = (o.own.define .undefined k d).2 ∧
      Sim r p { g with target := (g.target.define .undefined k d).1 }
        ⟨(o.own.define .undefined k d).1, o.held⟩ := by
  unfold PropertyMap.define
  rw [hsame]
  split
  · refine ⟨rfl, h.put hk _ rfl (fun j => ?_) rfl rfl⟩
    refine ⟨fun hj => ⟨hj, ?_⟩, fun hj => hj.1⟩
    rintro rfl
    exact hr hj
  · exact ⟨rfl, h⟩

variable {f : Fn β}

theorem Sim.callFn (h : Sim r p g o) (hf : Calls g f) (v : Value α β) :
    (callFn r p g.target g.held f v).2 = (callFn r p o.own o.held f v).2 ∧
      Sim r p { g with
          target := (callFn r p g.target g.held f v).1.1
          held := (callFn r p g.target g.held f v).1.2 }
        ⟨(callFn r p o.own o.held f v).1.1, (callFn r p o.own o.held f v).1.2⟩ := by
  obtain ⟨own, held⟩ := o
  obtain rfl : held = g.held := h.held
  cases f with
  | getter k => exact ⟨rfl, h⟩
  | setter k =>
    by_cases hnav : k = .name "Navigator"
    · subst hnav
      have hk : (.name "Navigator" : Key) ≠ processKey := by decide
      have hr : .name "Navigator" ∉ g.removed := hf rfl
      have htouched : g.Touched (.name "Navigator") := by
        refine h.starts _ (.inl ?_)
        rw [Guest.new, keys_localGlobals]
        decide
      obtain ⟨property, hproperty⟩ := mem_keys_iff.1 (htouched.resolve_right hr)
      obtain ⟨hok, hsim⟩ := h.define hk (hproperty.trans (h.find_target hk hproperty).symm) hr
        (navigatorDescriptor v)
      simp only [GuestGlobal.callFn, if_true, hok]
      exact ⟨trivial, hsim⟩
    · by_cases hname : k ∈ accessorNames
      · simp only [GuestGlobal.callFn, if_neg hnav, if_pos hname]
        exact ⟨trivial, { h with held := rfl }⟩
      · simp only [GuestGlobal.callFn, if_neg hnav, if_neg hname]
        exact ⟨trivial, h⟩
  | other f => exact ⟨rfl, h⟩

/-- A call leaves a property as it was, or one that is configurable. -/
theorem find_callFn (object : Globals α β) (held : List (Key × Value α β)) (f : Fn β)
    (v : Value α β) (k : Key) :
    OrderedMap.find k (callFn r p object held f v).1.1 = OrderedMap.find k object ∨
      ∃ property, OrderedMap.find k (callFn r p object held f v).1.1 = some property ∧
        property.configurable = true := by
  cases f with
  | getter j => exact .inl rfl
  | setter j =>
    by_cases hnav : j = .name "Navigator"
    · simp only [callFn, if_pos hnav, define]
      split
      · by_cases hjk : j = k
        · subst hjk
          rw [find_set_self]
          refine .inr ⟨_, rfl, ?_⟩
          cases OrderedMap.find j object <;> rfl
        · rw [find_set_ne hjk]
          exact .inl rfl
      · exact .inl rfl
    · by_cases hname : j ∈ accessorNames
      · refine .inl ?_
        simp only [callFn, if_neg hnav, if_pos hname]
      · refine .inl ?_
        simp only [callFn, if_neg hnav, if_neg hname]
  | other f => exact .inl rfl

/-! ## Operations -/

/-- What a trap leaves and answers, and what the operation leaves and answers on an ordinary
object: the realm is as it was, and the rest is in step. -/
structure InStep (r : Realm α β) (p : ℕ) (reply : Reply α β) (next : Ordinary α β × Answer α β) :
    Prop where
  realm : reply.1 = r
  answer : reply.2.2 = next.2
  sim : Sim r p reply.2.1 next.1

variable {target : Globals α β} {property : Property (Value α β) (Fn β)}

theorem getAgrees_of_configurable (hfind : OrderedMap.find k target = some property)
    (h : property.configurable = true) (a : Answer α β) : GetAgrees target k a = true := by
  obtain ⟨content, e, c⟩ := property
  obtain rfl : c = true := h
  cases a with
  | value v => cases content <;> simp [GetAgrees, hfind]
  | done | keys | descriptor | called | threw | typeError => rfl

variable {e c : Bool}

theorem getAgrees_of_getter {set : Option (Fn β)}
    (hfind : OrderedMap.find k target = some ⟨.accessor (some f) set, e, c⟩) (a : Answer α β) :
    GetAgrees target k a = true := by
  cases a with
  | value v => simp [GetAgrees, hfind]
  | done | keys | descriptor | called | threw | typeError => rfl

theorem getAgrees_of_absent (hfind : OrderedMap.find k target = none)
    (a : Answer α β) : GetAgrees target k a = true := by
  cases a with
  | value v => simp [GetAgrees, hfind]
  | done | keys | descriptor | called | threw | typeError => rfl

theorem getTrap_inStep (h : Sim r p g o) (hop : OwnOp r p g (.get k)) :
    InStep r p (getTrap r p g k) (o.perform r p (.get k)) ∧
      GetAgrees (getTrap r p g k).2.1.target k (getTrap r p g k).2.2 = true := by
  obtain ⟨hk, hcalls, hstands⟩ := hop
  cases hfind : OrderedMap.find k g.target with
  | some property =>
    have hown := h.find_target hk hfind
    have htrap : getTrap r p g k = getTarget r p g property := by
      rw [getTrap, if_neg hk, hfind]
    obtain ⟨content, e, c⟩ := property
    rw [htrap]
    match content with
    | .data v w =>
      refine ⟨⟨rfl, ?_, ?_⟩, ?_⟩
      · simp only [getTarget, perform, hown]
      · simpa only [getTarget, perform, hown] using h
      · simp only [getTarget, GetAgrees, hfind]
        cases w <;> cases c <;> simp
    | .accessor none set =>
      refine ⟨⟨rfl, ?_, ?_⟩, ?_⟩
      · simp only [getTarget, perform, hown]
      · simpa only [getTarget, perform, hown] using h
      · simp only [getTarget, GetAgrees, hfind]
        cases c <;> simp
    | .accessor (some f) set =>
      have hf : Calls g f := by
        rw [hfind] at hcalls
        exact hcalls
      obtain ⟨houtcome, hsim⟩ := h.callFn hf .undefined
      refine ⟨⟨rfl, ?_, ?_⟩, ?_⟩
      · simp only [getTarget, perform, hown, called]
        generalize (callFn r p g.target g.held f .undefined).2 = a at houtcome ⊢
        generalize (callFn r p o.own o.held f .undefined).2 = b at houtcome ⊢
        subst houtcome
        rfl
      · simpa only [getTarget, perform, hown, called] using hsim
      · simp only [getTarget]
        rcases find_callFn (r := r) (p := p) g.target g.held f .undefined k with hsame | ⟨q, hq, hc⟩
        · exact getAgrees_of_getter (hsame.trans hfind) _
        · exact getAgrees_of_configurable hq hc _
  | none =>
    have htrap : getTrap r p g k =
        (r, g, .value (if k ∈ g.removed then .undefined else standing r p k)) := by
      rw [getTrap, if_neg hk, hfind]
    have hperform : o.perform r p (.get k) =
        (o, .value (if k ∈ g.removed then .undefined else standing r p k)) := by
      by_cases hr : k ∈ g.removed
      · simp only [perform, h.find_removed hk hr, if_pos hr,
          if_neg fun hi => h.inherits k hi hr]
      · have hno : ¬ g.Touched k := by
          rw [touched_iff, hfind]
          simpa using hr
        rw [if_neg hr]
        by_cases hnode : k ∈ nodeGlobals
        · simp only [perform, h.find_nodeGlobal hk hno hnode]
        · rcases h.find_realm hk hno hnode with ⟨hrealm, hown⟩ | ⟨q, w, e, -, -, -, hown⟩
          · have habsent : k ∉ keys r.own := find_eq_none_iff.1 hrealm
            by_cases hhas : r.Has k
            · simp only [perform, hown, h.inherits_iff hno hnode habsent, if_pos hhas]
            · have hundefined : standing r p k = .undefined := by
                rcases hstands with ht | hn | hh | hu
                · exact absurd ht hno
                · exact absurd hn hnode
                · exact absurd hh hhas
                · exact hu
              simp only [perform, hown, h.inherits_iff hno hnode habsent, if_neg hhas,
                hundefined]
          · simp only [perform, hown]
    rw [htrap, hperform]
    exact ⟨⟨rfl, rfl, h⟩, getAgrees_of_absent hfind _⟩

theorem setAgrees_of_configurable (hfind : OrderedMap.find k target = some property)
    (h : property.configurable = true) (v : Value α β)
    (a : Answer α β) : SetAgrees target k v a = true := by
  obtain ⟨content, e, c⟩ := property
  obtain rfl : c = true := h
  cases a with
  | done ok => cases ok <;> cases content <;> simp [SetAgrees, hfind]
  | value | keys | descriptor | called | threw | typeError => rfl

theorem setAgrees_of_writable {u : Value α β}
    (hfind : OrderedMap.find k target = some ⟨.data u true, e, c⟩) (v : Value α β)
    (a : Answer α β) : SetAgrees target k v a = true := by
  cases a with
  | done ok => cases ok <;> simp [SetAgrees, hfind]
  | value | keys | descriptor | called | threw | typeError => rfl

theorem setAgrees_of_setter {get : Option (Fn β)}
    (hfind : OrderedMap.find k target = some ⟨.accessor get (some f), e, c⟩) (v : Value α β)
    (a : Answer α β) : SetAgrees target k v a = true := by
  cases a with
  | done ok => cases ok <;> simp [SetAgrees, hfind]
  | value | keys | descriptor | called | threw | typeError => rfl

theorem defineTarget_fresh (hnone : OrderedMap.find k g.target = none)
    (d : Descriptor (Value α β) (Fn β)) : defineTarget r g k d =
      (r, { g with target := OrderedMap.set k (d.create .undefined) g.target }, .done true) := by
  have hcompatible : d.Compatible (none : Option (Property (Value α β) (Fn β))) := trivial
  rw [defineTarget, define, hnone, if_pos hcompatible]
  rfl

/-- A call of one of the engine's functions is over when it returns. -/
theorem callFn_of_engines (object : Globals α β) (held : List (Key × Value α β))
    (hf : Engines f = true) (v : Value α β) : (callFn r p object held f v).2 ≠ .elsewhere := by
  cases f with
  | getter j =>
    have hj : j ∈ accessorNames := by simpa [Engines] using hf
    simp [callFn, hj]
  | setter j =>
    have hj : j ∈ accessorNames := by simpa [Engines] using hf
    by_cases hnav : j = .name "Navigator"
    · simp only [callFn, if_pos hnav]
      split <;> simp
    · simp [callFn, hnav, hj]
  | other f => cases hf

theorem setTarget_inStep (h : Sim r p g o) (hk : k ≠ processKey)
    (hfind : OrderedMap.find k g.target = some property) (hcalls : SetterCalls g (some property))
    (v : Value α β) : InStep r p (setTarget r p g k property v) (o.perform r p (.set k v)) ∧
      SetAgrees (setTarget r p g k property v).2.1.target k v (setTarget r p g k property v).2.2 := by
  have hown := h.find_target hk hfind
  have happart : k ∉ g.removed := fun hr => by
    rw [h.apart k hr] at hfind
    cases hfind
  obtain ⟨content, e, c⟩ := property
  match content with
  | .data u true =>
    refine ⟨⟨rfl, ?_, ?_⟩, ?_⟩
    · simp only [setTarget, perform, hown]
    · simp only [setTarget, perform, hown]
      refine h.put hk _ rfl (fun j => ⟨fun hj => ⟨hj, ?_⟩, fun hj => hj.1⟩) rfl rfl
      rintro rfl
      exact happart hj
    · exact setAgrees_of_writable (find_set_self k _ g.target) v _
  | .data u false =>
    refine ⟨⟨rfl, ?_, ?_⟩, rfl⟩
    · simp only [setTarget, perform, hown]
    · simpa only [setTarget, perform, hown] using h
  | .accessor get none =>
    refine ⟨⟨rfl, ?_, ?_⟩, rfl⟩
    · simp only [setTarget, perform, hown]
    · simpa only [setTarget, perform, hown] using h
  | .accessor get (some f) =>
    obtain ⟨hengines, hf⟩ := hcalls
    obtain ⟨houtcome, hsim⟩ := h.callFn hf v
    have hreturns := callFn_of_engines (r := r) (p := p) g.target g.held hengines v
    refine ⟨⟨rfl, ?_, ?_⟩, ?_⟩
    · simp only [setTarget, perform, hown, called, ← houtcome]
      generalize (callFn r p g.target g.held f v).2 = outcome at hreturns
      cases outcome with
      | returned _ | threw => rfl
      | elsewhere => exact absurd rfl hreturns
    · simpa only [setTarget, perform, hown, called] using hsim
    · simp only [setTarget]
      rcases find_callFn (r := r) (p := p) g.target g.held f v k with hsame | ⟨q, hq, hc⟩
      · exact setAgrees_of_setter (hsame.trans hfind) v _
      · exact setAgrees_of_configurable hq hc v _

theorem setTrap_inStep (h : Sim r p g o) {v : Value α β} (hop : OwnOp r p g (.set k v)) :
    InStep r p (setTrap r p g k v) (o.perform r p (.set k v)) ∧
      SetAgrees (setTrap r p g k v).2.1.target k v (setTrap r p g k v).2.2 := by
  obtain ⟨hk, hop⟩ := hop
  unfold setTrap
  by_cases hstandIn : k ∈ standIns ∧ k ∉ g.guestAssigned
  · rw [if_pos hstandIn] at hop
    rw [if_pos hstandIn]
    obtain ⟨hr, hassigned⟩ := hop
    match hfind : OrderedMap.find k g.target with
    | none =>
      rw [hfind] at hassigned
      exact hassigned.elim
    | some ⟨.accessor _ _, _, _⟩ =>
      rw [hfind] at hassigned
      exact hassigned.elim
    | some ⟨.data u w, e, c⟩ =>
      rw [hfind] at hassigned
      obtain ⟨rfl, rfl, rfl⟩ := hassigned
      have hown := h.find_target hk hfind
      have hcompatible : (Property.assigned v : Property (Value α β) (Fn β)).descriptor.Compatible
          (some ⟨.data u true, true, true⟩) := .inl rfl
      simp only [defineTarget, define, hfind, if_pos hcompatible]
      refine ⟨⟨rfl, ?_, ?_⟩, setAgrees_of_writable (find_set_self k _ g.target) v _⟩
      · simp only [perform, hown]
      · simp only [perform, hown]
        refine h.put hk _ rfl (fun j => ⟨fun hj => ⟨hj, ?_⟩, fun hj => hj.1⟩) rfl rfl
        rintro rfl
        exact hr hj
  · rw [if_neg hstandIn] at hop
    rw [if_neg hstandIn, if_neg hk]
    obtain ⟨hmine, hcalls⟩ := hop
    cases hfind : OrderedMap.find k g.target with
    | some property =>
      rw [hfind] at hcalls
      exact setTarget_inStep h hk hfind hcalls v
    | none =>
      by_cases hr : k ∈ g.removed
      · have hown := h.find_removed hk hr
        have hfind' : OrderedMap.find k (g.unremove k).target = none := hfind
        simp only [if_pos hr, defineTarget_fresh hfind']
        refine ⟨⟨rfl, ?_, ?_⟩, setAgrees_of_writable (find_set_self k _ g.target) v _⟩
        · simp only [perform, hown]
        · simp only [perform, hown]
          refine h.put hk _ rfl (fun j => ?_) rfl rfl
          simp [Guest.unremove]
      · have hno : ¬ g.Touched k := by
          rw [touched_iff, hfind]
          simpa using hr
        have hnode := hmine.resolve_left hno
        have hown := h.find_nodeGlobal hk hno hnode
        simp only [if_neg hr, if_pos hnode, defineTarget_fresh hfind]
        refine ⟨⟨rfl, ?_, ?_⟩, setAgrees_of_writable (find_set_self k _ g.target) v _⟩
        · simp only [perform, hown]
        · simp only [perform, hown]
          refine h.put hk _ rfl (fun j => ⟨fun hj => ⟨hj, ?_⟩, fun hj => hj.1⟩) rfl rfl
          rintro rfl
          exact hr hj

omit [DecidableEq α] [DecidableEq β] in
theorem mem_own_iff (h : Sim r p g o) (hk : k ≠ processKey) :
    k ∈ keys o.own ↔ k ∈ keys g.target ∨
      k ∉ g.removed ∧ k ∉ localNames ∧ (k ∈ nodeGlobals ∨ k ∈ keys r.own) := by
  by_cases htarget : k ∈ keys g.target
  · obtain ⟨property, hfind⟩ := mem_keys_iff.1 htarget
    exact iff_of_true (mem_keys_iff.2 ⟨property, h.find_target hk hfind⟩) (.inl htarget)
  · by_cases hr : k ∈ g.removed
    · have hnone := find_eq_none_iff.1 (h.find_removed hk hr)
      exact iff_of_false hnone fun hor => (hor.resolve_left htarget).1 hr
    · have hno : ¬ g.Touched k := not_or.2 ⟨htarget, hr⟩
      have hlocal := h.not_local hno
      by_cases hnode : k ∈ nodeGlobals
      · exact iff_of_true (mem_keys_iff.2 ⟨_, h.find_nodeGlobal hk hno hnode⟩)
          (.inr ⟨hr, hlocal, .inl hnode⟩)
      · rcases h.find_realm hk hno hnode with ⟨hrealm, hown⟩ | ⟨q, w, e, hrealm, -, -, hown⟩
        · refine iff_of_false (find_eq_none_iff.1 hown) fun hor => ?_
          have hmem := ((hor.resolve_left htarget).2.2).resolve_left hnode
          exact find_eq_none_iff.1 hrealm hmem
        · exact iff_of_true (mem_keys_iff.2 ⟨_, hown⟩)
            (.inr ⟨hr, hlocal, .inr (mem_keys_iff.2 ⟨q, hrealm⟩)⟩)

omit [DecidableEq α] [DecidableEq β] in
theorem absent_of_touched_not_target (h : Sim r p g o) (hr : k ∈ g.removed) :
    k ∉ keys g.target := find_eq_none_iff.1 (h.apart k hr)

omit [DecidableEq α] [DecidableEq β] in
/-- `in` answers as on the ordinary object, and denies no pinned property. -/
theorem hasTrap_eq (h : Sim r p g o) (hk : k ≠ processKey) :
    hasTrap r g k = decide (k ∈ keys o.own ∨ Inherits r k) ∧
      AbsentAgrees g.target k (!hasTrap r g k) = true := by
  have hshadowed : g.shadowed k = true ↔ k ∈ keys g.target := by
    rw [Guest.shadowed, Option.isSome_iff_exists, mem_keys_iff]
  unfold hasTrap
  by_cases hr : k ∈ g.removed
  · have htarget := absent_of_touched_not_target h hr
    have hown := find_eq_none_iff.1 (h.find_removed hk hr)
    have hinherits : ¬ Inherits r k := fun hi => h.inherits k hi hr
    simp [hr, hown, hinherits, AbsentAgrees, find_eq_none_iff.2 htarget]
  · by_cases htarget : k ∈ keys g.target
    · have hown := (mem_own_iff h hk).2 (.inl htarget)
      simp [hr, hshadowed.2 htarget, hown, AbsentAgrees]
    · have hno : ¬ g.Touched k := not_or.2 ⟨htarget, hr⟩
      have hlocal := h.not_local hno
      have hown : k ∈ keys o.own ↔ k ∈ nodeGlobals ∨ k ∈ keys r.own := by
        rw [mem_own_iff h hk, or_iff_right htarget, and_iff_right hr, and_iff_right hlocal]
      have hiff : k ∈ nodeGlobals ∨ r.Has k ↔ k ∈ keys o.own ∨ Inherits r k := by
        rw [hown]
        by_cases hnode : k ∈ nodeGlobals
        · simp [hnode]
        · by_cases hrealm : k ∈ keys r.own
          · simp [hnode, hrealm, Realm.Has]
          · simp [hnode, hrealm, h.inherits_iff hno hnode hrealm]
      have hfalse : g.shadowed k = false := Bool.eq_false_iff.2 fun hs => htarget (hshadowed.1 hs)
      rw [if_neg hr, hfalse, if_neg hlocal]
      refine ⟨decide_eq_decide.2 hiff, ?_⟩
      simp [AbsentAgrees, find_eq_none_iff.2 htarget]

omit [DecidableEq α] [DecidableEq β] in
theorem configurable_of_standing (h : Sim r p g o) (hk : k ≠ processKey) (hno : ¬ g.Touched k)
    (hown : OrderedMap.find k o.own = some property) : property.configurable = true := by
  by_cases hnode : k ∈ nodeGlobals
  · rw [h.find_nodeGlobal hk hno hnode] at hown
    rw [← Option.some.inj hown]
  · rcases h.find_realm hk hno hnode with ⟨-, hnone⟩ | ⟨q, w, e, -, -, -, hsome⟩
    · rw [hnone] at hown
      cases hown
    · rw [hsome] at hown
      rw [← Option.some.inj hown]

theorem deleteTrap_inStep (h : Sim r p g o) (hop : OwnOp r p g (.delete k)) :
    InStep r p (deleteTrap r g k) (o.perform r p (.delete k)) ∧
      AbsentAgrees (deleteTrap r g k).2.1.target k
        (decide ((deleteTrap r g k).2.2 = .done true)) = true := by
  obtain ⟨hk, hinherits⟩ := hop
  have hdrop := h.drop hk hinherits
  have hgone : OrderedMap.find k (erase k g.target) = none := by
    rw [find_erase, if_pos rfl]
  unfold deleteTrap
  cases hfind : OrderedMap.find k g.target with
  | some property =>
    have hown := h.find_target hk hfind
    cases hc : property.configurable with
    | true =>
      simp only [delete, hfind, hc, if_true, perform, hown]
      exact ⟨⟨rfl, rfl, hdrop⟩, by simp [AbsentAgrees, hgone]⟩
    | false =>
      simp only [delete, hfind, hc, Bool.false_eq_true, if_false, perform, hown]
      exact ⟨⟨rfl, rfl, h⟩, by simp [AbsentAgrees]⟩
  | none =>
    have herase := erase_of_find_eq_none hfind
    rw [herase] at hdrop
    have hperform : o.perform r p (.delete k) = (⟨erase k o.own, o.held⟩, .done true) := by
      cases hown : OrderedMap.find k o.own with
      | none =>
        simp only [perform, delete, hown, erase_of_find_eq_none hown]
      | some property =>
        have hno : ¬ g.Touched k := by
          rw [touched_iff, hfind]
          rintro (hne | hr)
          · exact hne rfl
          · rw [h.find_removed hk hr] at hown
            cases hown
        have hc := configurable_of_standing h hk hno hown
        simp only [perform, delete, hown, hc, if_true]
    rw [hperform]
    simp only [delete, hfind, if_true]
    exact ⟨⟨rfl, rfl, hdrop⟩, by simp [AbsentAgrees, hfind]⟩

variable {d : Descriptor (Value α β) (Fn β)}

theorem defineAgrees_apply (current : Option (Property (Value α β) (Fn β)))
    (hfind : OrderedMap.find k target = some (d.apply .undefined current)) (a : Answer α β) :
    DefineAgrees target k d a = true := by
  have hcompatible := Descriptor.compatible_apply .undefined d current
  have hpinned : (decide (d.configurable = some false) &&
      (d.apply .undefined current).configurable) = false := by
    by_cases hc : d.configurable = some false
    · rw [Descriptor.configurable_apply hc, Bool.and_false]
    · simp [hc]
  have hwritable : ClaimsReadOnly (d.apply .undefined current) d.fields = false := by
    unfold ClaimsReadOnly
    split
    · rename_i v e value given hproperty hfields
      cases current with
      | none =>
        simp only [Descriptor.apply, Descriptor.create, hfields, Property.mk.injEq] at hproperty
        cases hproperty.1
      | some p =>
        obtain ⟨content, pe, pc⟩ := p
        cases content <;>
          simp only [Descriptor.apply, Descriptor.change, Fields.change, hfields,
            Property.mk.injEq] at hproperty <;> cases hproperty.1
    · rfl
  cases a with
  | done ok =>
    cases ok with
    | false => rfl
    | true =>
      simp only [DefineAgrees, hfind, hpinned, hwritable, decide_eq_true hcompatible]
      rfl
  | value | keys | descriptor | called | threw | typeError => rfl

omit [DecidableEq α] [DecidableEq β] in
theorem overStanding_create (d : Descriptor (Value α β) (Fn β)) :
    (overStanding r p k d).create .undefined =
      d.change .undefined ⟨.data (standing r p k) true, decide (k ≠ .name "globalThis"), true⟩ := by
  obtain ⟨fields, enumerable, configurable⟩ := d
  cases fields <;> rfl

omit [DecidableEq α] [DecidableEq β] in
theorem change_of_complete (hd : Complete d) (property : Property (Value α β) (Fn β)) :
    d.change .undefined property = d.create .undefined := by
  obtain ⟨fields, enumerable, configurable⟩ := d
  obtain ⟨content, e, c⟩ := property
  obtain ⟨he, hc, hfields⟩ := hd
  obtain ⟨e', rfl⟩ := Option.ne_none_iff_exists'.1 he
  obtain ⟨c', rfl⟩ := Option.ne_none_iff_exists'.1 hc
  cases fields with
  | generic => exact hfields.elim
  | data value writable =>
    obtain ⟨v, rfl⟩ := Option.ne_none_iff_exists'.1 hfields.1
    obtain ⟨w, rfl⟩ := Option.ne_none_iff_exists'.1 hfields.2
    cases content <;> rfl
  | accessor get set =>
    obtain ⟨f, rfl⟩ := Option.ne_none_iff_exists'.1 hfields.1
    obtain ⟨f', rfl⟩ := Option.ne_none_iff_exists'.1 hfields.2
    cases content <;> rfl

/-- A define of a property that stands: what is put there is what the descriptor makes of
what stood. -/
theorem perform_define_of_configurable (hown : OrderedMap.find k o.own = some property)
    (hc : property.configurable = true)
    (d : Descriptor (Value α β) (Fn β)) : o.perform r p (.define k d) =
      (⟨OrderedMap.set k (d.change .undefined property) o.own, o.held⟩, .done true) := by
  have hcompatible : d.Compatible (some property) := .inl hc
  simp only [perform, define, hown, if_pos hcompatible]
  rfl

theorem perform_define_of_none (hown : OrderedMap.find k o.own = none)
    (d : Descriptor (Value α β) (Fn β)) : o.perform r p (.define k d) =
      (⟨OrderedMap.set k (d.create .undefined) o.own, o.held⟩, .done true) := by
  have hcompatible : d.Compatible (none : Option (Property (Value α β) (Fn β))) := trivial
  simp only [perform, define, hown, if_pos hcompatible]
  rfl

theorem defineTrap_inStep (h : Sim r p g o) (hop : OwnOp r p g (.define k d)) :
    InStep r p (defineTrap r p g k d) (o.perform r p (.define k d)) ∧
      DefineAgrees (defineTrap r p g k d).2.1.target k d (defineTrap r p g k d).2.2 = true := by
  obtain ⟨hk, hmine⟩ := hop
  unfold defineTrap
  cases hfind : OrderedMap.find k g.target with
  | some property =>
    have hown := h.find_target hk hfind
    have hr : k ∉ g.removed := fun hr => by
      rw [h.apart k hr] at hfind
      cases hfind
    have hshadowed : g.shadowed k = true := by rw [Guest.shadowed, hfind]; rfl
    obtain ⟨hok, hsim⟩ := h.define hk (hfind.trans hown.symm) hr d
    rw [if_pos hshadowed]
    refine ⟨⟨rfl, ?_, hsim⟩, ?_⟩
    · simp only [defineTarget, perform, hok]
    · simp only [defineTarget, define, hfind]
      split
      · exact defineAgrees_apply (some property) (find_set_self k _ g.target) _
      · rfl
  | none =>
    have hshadowed : ¬ g.shadowed k = true := by rw [Guest.shadowed, hfind]; simp
    have hmade : ∀ d' : Descriptor (Value α β) (Fn β), g.target.define .undefined k d' =
        (OrderedMap.set k (d'.create .undefined) g.target, true) := by
      intro d'
      have hcompatible : d'.Compatible (none : Option (Property (Value α β) (Fn β))) := trivial
      rw [define, hfind, if_pos hcompatible]
      rfl
    rw [if_neg hshadowed]
    by_cases hr : k ∈ g.removed
    · rw [if_pos (.inl hr), perform_define_of_none (h.find_removed hk hr)]
      simp only [if_pos hr, hmade, if_true]
      refine ⟨⟨rfl, rfl, ?_⟩,
        defineAgrees_apply none (find_set_self k _ g.target) _⟩
      refine h.put hk _ rfl (fun j => ?_) rfl rfl
      simp [Guest.unremove]
    · have hno : ¬ g.Touched k := by
        rw [touched_iff, hfind]
        simpa using hr
      have hkeep : ∀ j, j ∈ g.removed ↔ j ∈ g.removed ∧ j ≠ k := by
        intro j
        refine ⟨fun hj => ⟨hj, ?_⟩, fun hj => hj.1⟩
        rintro rfl
        exact hr hj
      by_cases hnode : k ∈ nodeGlobals
      · have hown := h.find_nodeGlobal hk hno hnode
        rw [if_pos (.inr hnode), perform_define_of_configurable hown rfl]
        simp only [if_neg hr, hmade, if_true, overStanding_create]
        refine ⟨⟨rfl, rfl, ?_⟩,
          defineAgrees_apply (some _) (find_set_self k _ g.target) _⟩
        refine h.put hk _ rfl (fun j => ?_) rfl rfl
        simp [Guest.unremove]
      · obtain ⟨hc, hplain⟩ := (hmine.resolve_left hno).resolve_left hnode
        rw [if_neg (not_or.2 ⟨hr, hnode⟩), if_pos hc, defineTarget_fresh hfind]
        have hperform : o.perform r p (.define k d) =
            (⟨OrderedMap.set k (d.create .undefined) o.own, o.held⟩, .done true) := by
          rcases h.find_realm hk hno hnode with ⟨-, hown⟩ | ⟨q, w, e, hrealm, -, -, hown⟩
          · exact perform_define_of_none hown d
          · have hmem : k ∈ keys r.own := mem_keys_iff.2 ⟨q, hrealm⟩
            rw [perform_define_of_configurable hown rfl,
              change_of_complete (hplain.resolve_left (not_not.2 hmem))]
        rw [hperform]
        refine ⟨⟨rfl, rfl, h.put hk _ rfl hkeep rfl rfl⟩, ?_⟩
        exact defineAgrees_apply none (find_set_self k _ g.target) _

theorem reportAgrees_own (hfind : OrderedMap.find k target = some property) :
    ReportAgrees target k (some property) = true := by
  have hcompatible := Descriptor.compatible_descriptor property
  obtain ⟨content, e, c⟩ := property
  simp only [ReportAgrees, hfind, decide_eq_true hcompatible]
  cases content with
  | data v w => cases c <;> cases w <;> rfl
  | accessor get set => cases c <;> rfl

/-- A report is that of the ordinary object, and one the target allows. -/
theorem getOwnTrap_eq (h : Sim r p g o) (hop : OwnOp r p g (.getOwn k)) :
    getOwnTrap r p g k = OrderedMap.find k o.own ∧
      ReportAgrees g.target k (getOwnTrap r p g k) = true := by
  obtain ⟨hk, hmine⟩ := hop
  cases hfind : OrderedMap.find k g.target with
  | some property =>
    have htrap : getOwnTrap r p g k = some property := by rw [getOwnTrap, hfind]; rfl
    rw [htrap, h.find_target hk hfind]
    exact ⟨rfl, reportAgrees_own hfind⟩
  | none =>
    have htrap : getOwnTrap r p g k = standingProperty r p g k := by rw [getOwnTrap, hfind]; rfl
    have hreport : ∀ property : Property (Value α β) (Fn β), property.configurable = true →
        ReportAgrees g.target k (some property) = true := by
      intro property hc
      have hcompatible : property.descriptor.Compatible
          (none : Option (Property (Value α β) (Fn β))) := trivial
      simp only [ReportAgrees, hfind, hc, decide_eq_true hcompatible]
      rfl
    have habsent : ReportAgrees g.target k none = true := by simp [ReportAgrees, AbsentAgrees, hfind]
    rw [htrap]
    by_cases hr : k ∈ g.removed
    · rw [standingProperty_removed hr, h.find_removed hk hr]
      exact ⟨rfl, habsent⟩
    · have hno : ¬ g.Touched k := by
        rw [touched_iff, hfind]
        simpa using hr
      by_cases hnode : k ∈ nodeGlobals
      · rw [h.find_nodeGlobal hk hno hnode, h.standingProperty_eq hk hno, if_pos hnode]
        exact ⟨rfl, hreport _ rfl⟩
      · have hread := (hmine.resolve_left hno).resolve_left hnode
        rcases h.find_realm hk hno hnode with ⟨hrealm, hown⟩ | ⟨q, w, e, hrealm, hw, hstands, hown⟩
        · rw [hown, h.standingProperty_eq hk hno, if_neg hnode, hrealm]
          exact ⟨rfl, habsent⟩
        · rw [hown, hstands]
          refine ⟨?_, hreport _ rfl⟩
          obtain ⟨content, e', c'⟩ := q
          simp only [ReadAsReported, hrealm] at hread
          cases content with
          | data v w' =>
            rw [hw v w' rfl, ← hread]
          | accessor get set => exact hread.elim

end

end GuestGlobal

end Tabnode
