import Tabnode.GuestGlobal.Realm

/-!
# An ordinary global object

What a guest's global is meant to be: an ordinary extensible object of its process, that
begins with the names which stand behind the proxy, and that no other process can reach.
-/

namespace Tabnode

namespace GuestGlobal

open OrderedMap hiding set

variable {α β : Type*} [DecidableEq α] [DecidableEq β]

/-- An ordinary global, and what was assigned to the engine's accessors among its properties. -/
structure Ordinary (α β : Type*) where
  own : Globals α β
  held : List (Key × Value α β)

def asValue (v : Value α β) (property : Property (Value α β) (Fn β)) :
    Property (Value α β) (Fn β) :=
  { property with
    content := match property.content with
      | .data _ writable => .data v writable
      | .accessor _ _ => .data v true }

/-- What is at a name: the guest's own property, or the value that stands behind the name in
the shape the proxy reports. -/
def at? (r : Realm α β) (p : ℕ) (g : Guest α β) (k : Key) : Option (Property (Value α β) (Fn β)) :=
  (find k g.target).or ((standingProperty r p g k).map (asValue (standing r p k)))

def Inherits (r : Realm α β) (k : Key) : Prop :=
  k ∈ keys r.inherited ∧ k ∉ keys r.own ∧
    k ∉ keys (localGlobals : Globals α β) ∧ k ∉ nodeGlobals ∧
    k ∉ (Guest.new r).removed

instance (r : Realm α β) (k : Key) : Decidable (Inherits r k) :=
  inferInstanceAs (Decidable (_ ∧ _))

def Ordinary.new (r : Realm α β) (p : ℕ) : Ordinary α β where
  own := (ownKeysTrap r (Guest.new r)).map fun k =>
    (k, (at? r p (Guest.new r) k).getD (.assigned .undefined))
  held := []

def Ordinary.called (r : Realm α β) (p : ℕ) (o : Ordinary α β) (f : Fn β) (v : Value α β)
    (returned : Value α β → Answer α β) (args : List (Value α β)) : Ordinary α β × Answer α β :=
  let ((own, held), outcome) := callFn r p o.own o.held f v
  (⟨own, held⟩,
    match outcome with
    | .returned v => returned v
    | .threw => .threw
    | .elsewhere => .called f .global args)

def Ordinary.perform (r : Realm α β) (p : ℕ) (o : Ordinary α β) :
    Op α β → Ordinary α β × Answer α β
  | .get k =>
      match find k o.own with
      | none => (o, .value (if Inherits r k then standing r p k else .undefined))
      | some property =>
          match property.content with
          | .data v _ => (o, .value v)
          | .accessor none _ => (o, .value .undefined)
          | .accessor (some f) _ => o.called r p f .undefined .value []
  | .set k v =>
      match find k o.own with
      | none => ({ o with own := OrderedMap.set k (.assigned v) o.own }, .done true)
      | some property =>
          match property.content with
          | .data _ true =>
              ({ o with own := OrderedMap.set k { property with content := .data v true } o.own },
                .done true)
          | .data _ false | .accessor _ none => (o, .done false)
          | .accessor _ (some f) => o.called r p f v (fun _ => .done true) [v]
  | .has k => (o, .done (decide (k ∈ keys o.own ∨ Inherits r k)))
  | .delete k => ({ o with own := (o.own.delete k).1 }, .done (o.own.delete k).2)
  | .define k d =>
      ({ o with own := (o.own.define .undefined k d).1 }, .done (o.own.define .undefined k d).2)
  | .getOwn k => (o, .descriptor (find k o.own))
  | .ownKeys => (o, .keys (ownKeys o.own))

def ordinaryAnswers (r : Realm α β) (objects : ℕ → Ordinary α β) :
    List (ℕ × Op α β) → List (Answer α β)
  | [] => []
  | (p, op) :: ops =>
      ((objects p).perform r p op).2 ::
        ordinaryAnswers r (Function.update objects p ((objects p).perform r p op).1) ops

def Same : Answer α β → Answer α β → Prop
  | .keys l, .keys m => l.Perm m
  | a, b => a = b

/-! ## Where the proxy is one -/

def Guest.Touched (g : Guest α β) (k : Key) : Prop :=
  k ∈ keys g.target ∨ k ∈ g.removed

instance (g : Guest α β) (k : Key) : Decidable (g.Touched k) := inferInstanceAs (Decidable (_ ∨ _))

def Engines : Fn β → Bool
  | .getter k | .setter k => k ∈ accessorNames
  | .other _ => false

def Calls (g : Guest α β) (f : Fn β) : Prop :=
  f = .setter (.name "Navigator") → .name "Navigator" ∉ g.removed

instance (g : Guest α β) (f : Fn β) : Decidable (Calls g f) := inferInstanceAs (Decidable (_ → _))

def GetterCalls (g : Guest α β) : Option (Property (Value α β) (Fn β)) → Prop
  | some ⟨.accessor (some f) _, _, _⟩ => Calls g f
  | _ => True

instance (g : Guest α β) (property : Option (Property (Value α β) (Fn β))) :
    Decidable (GetterCalls g property) :=
  match property with
  | some ⟨.accessor (some f) _, _, _⟩ => inferInstanceAs (Decidable (Calls g f))
  | some ⟨.accessor none _, _, _⟩ | some ⟨.data _ _, _, _⟩ | none => .isTrue trivial

def SetterCalls (g : Guest α β) : Option (Property (Value α β) (Fn β)) → Prop
  | some ⟨.accessor _ (some f), _, _⟩ => Engines f ∧ Calls g f
  | _ => True

instance (g : Guest α β) (property : Option (Property (Value α β) (Fn β))) :
    Decidable (SetterCalls g property) :=
  match property with
  | some ⟨.accessor _ (some f), _, _⟩ => inferInstanceAs (Decidable (Engines f ∧ Calls g f))
  | some ⟨.accessor _ none, _, _⟩ | some ⟨.data _ _, _, _⟩ | none => .isTrue trivial

def Complete (d : Descriptor (Value α β) (Fn β)) : Prop :=
  d.enumerable ≠ none ∧ d.configurable ≠ none ∧
    match d.fields with
    | .generic => False
    | .data value writable _ => value ≠ none ∧ writable ≠ none
    | .accessor get set _ => get ≠ none ∧ set ≠ none

instance (d : Descriptor (Value α β) (Fn β)) : Decidable (Complete d) :=
  match d with
  | ⟨.generic, _, _⟩ => .isFalse fun h => h.2.2
  | ⟨.data value writable _, enumerable, configurable⟩ =>
      inferInstanceAs (Decidable (enumerable ≠ none ∧ configurable ≠ none ∧
        value ≠ none ∧ writable ≠ none))
  | ⟨.accessor get set _, enumerable, configurable⟩ =>
      inferInstanceAs (Decidable (enumerable ≠ none ∧ configurable ≠ none ∧
        get ≠ none ∧ set ≠ none))

def IsAssigned : Option (Property (Value α β) (Fn β)) → Prop
  | some ⟨.data _ writable, enumerable, configurable⟩ => writable ∧ enumerable ∧ configurable
  | _ => False

instance (property : Option (Property (Value α β) (Fn β))) : Decidable (IsAssigned property) :=
  match property with
  | some ⟨.data _ writable, enumerable, configurable⟩ =>
      inferInstanceAs (Decidable (writable ∧ enumerable ∧ configurable))
  | some ⟨.accessor _ _, _, _⟩ | none => .isFalse id

def ReadAsReported (r : Realm α β) (p : ℕ) (k : Key) : Prop :=
  match find k r.own with
  | none => True
  | some ⟨.data v _, _, _⟩ => v = standing r p k
  | some ⟨.accessor _ _, _, _⟩ => False

instance (r : Realm α β) (p : ℕ) (k : Key) : Decidable (ReadAsReported r p k) := by
  unfold ReadAsReported
  exact match find k r.own with
    | none => .isTrue trivial
    | some ⟨.data v _, _, _⟩ => inferInstanceAs (Decidable (v = standing r p k))
    | some ⟨.accessor _ _, _, _⟩ => .isFalse id

def OwnOp (r : Realm α β) (p : ℕ) (g : Guest α β) : Op α β → Prop
  | .get k =>
      k ≠ .name "process" ∧ GetterCalls g (find k g.target) ∧
        (g.Touched k ∨ k ∈ nodeGlobals ∨ r.Has k ∨ standing r p k = .undefined)
  | .set k _ =>
      k ≠ .name "process" ∧
        if k ∈ standIns ∧ k ∉ g.guestAssigned then
          k ∉ g.removed ∧ IsAssigned (find k g.target)
        else (g.Touched k ∨ k ∈ nodeGlobals) ∧ SetterCalls g (find k g.target)
  | .has k => k ≠ .name "process"
  | .delete k => k ≠ .name "process" ∧ ¬ Inherits r k
  | .define k d =>
      k ≠ .name "process" ∧ (g.Touched k ∨ k ∈ nodeGlobals ∨
        d.configurable = some false ∧ (k ∉ keys r.own ∨ Complete d))
  | .getOwn k =>
      k ≠ .name "process" ∧ (g.Touched k ∨ k ∈ nodeGlobals ∨ ReadAsReported r p k)
  | .ownKeys => True

instance (r : Realm α β) (p : ℕ) (g : Guest α β) (op : Op α β) : Decidable (OwnOp r p g op) := by
  cases op <;> unfold OwnOp <;> infer_instance

def OwnOps (w : World α β) : List (ℕ × Op α β) → Prop
  | [] => True
  | (p, op) :: ops => OwnOp w.realm p (w.guests p) op ∧ OwnOps (w.perform p op).1 ops

instance decidableOwnOps : ∀ (w : World α β) (ops : List (ℕ × Op α β)), Decidable (OwnOps w ops)
  | _, [] => .isTrue trivial
  | w, (p, op) :: ops =>
    have := decidableOwnOps (w.perform p op).1 ops
    inferInstanceAs (Decidable (OwnOp w.realm p (w.guests p) op ∧ OwnOps (w.perform p op).1 ops))

/-- Each process asks for its names before it assigns or defines any, those in `made` having
done so. -/
def KeysFirst (made : List ℕ) : List (ℕ × Op α β) → Prop
  | [] => True
  | (p, .ownKeys) :: ops => p ∉ made ∧ KeysFirst made ops
  | (p, .set _ _) :: ops | (p, .define _ _) :: ops => KeysFirst (p :: made) ops
  | _ :: ops => KeysFirst made ops

end GuestGlobal

end Tabnode
