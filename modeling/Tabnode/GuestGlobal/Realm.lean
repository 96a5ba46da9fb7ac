import Mathlib.Data.Nat.Notation
import Mathlib.Logic.Function.Basic
import Tabnode.Data.OrdinaryObject

/-!
# The realm and what stands behind a guest's global

Several processes run in one realm. Each has a global object of its own, a proxy over a
target that holds what the guest made its own; behind it stand what the engine provides
and the realm's own global, which all processes share.
-/

namespace Tabnode

namespace GuestGlobal

/-- The name of a property. -/
inductive Key
  | index (n : ℕ)
  | name (s : String)
  | symbol (n : ℕ)
  deriving DecidableEq

def Key.index? : Key → Option ℕ
  | .index n => some n
  | .name _ | .symbol _ => none

def Key.isName : Key → Bool
  | .name _ => true
  | .index _ | .symbol _ => false

def Key.isSymbol : Key → Bool
  | .symbol _ => true
  | .index _ | .name _ => false

def names (l : List String) : List Key := l.map .name

/-- Functions: the engine's own accessors of a guest's global, each named by its property,
and all others. -/
inductive Fn (β : Type*)
  | getter (key : Key)
  | setter (key : Key)
  | other (f : β)
  deriving DecidableEq

/-- Values: those of programs, the engine's own, and what a getter of the realm answers. -/
inductive Value (α β : Type*)
  | undefined
  | given (a : α)
  | guest (process : ℕ)
  | process (process : ℕ)
  | provided (process : ℕ) (key : Key)
  | shared (key : Key)
  | bound (process : ℕ) (key : Key) (original : Value α β)
  | answered (f : Fn β)
  deriving DecidableEq

abbrev Globals (α β : Type*) := PropertyMap Key (Value α β) (Fn β)

/-- The realm's global: its own properties, those of its prototypes, and the kinds of values. -/
structure Realm (α β : Type*) where
  own : Globals α β
  inherited : Globals α β
  isFunction : Value α β → Bool
  isObject : Value α β → Bool

/-- A guest's global: the proxy's target, the names the guest deleted, the stand-ins it has
assigned, what it assigned to the engine's accessors and to `process`, and what the realm
had before it. -/
structure Guest (α β : Type*) where
  target : Globals α β
  removed : List Key
  guestAssigned : List Key
  held : List (Key × Value α β)
  assignedProcess : Option (Value α β)
  hostAtStart : List Key

/-- A realm and the globals of its processes. -/
structure World (α β : Type*) where
  realm : Realm α β
  guests : ℕ → Guest α β

/-! ## Names -/

def nodeGlobalAccessors : List (String × Bool × Bool) :=
  [("performance", true, true), ("Buffer", true, false), ("crypto", false, true),
   ("URL", true, false), ("FormData", true, false), ("Headers", true, false),
   ("Request", true, false), ("Response", true, false), ("CloseEvent", true, false),
   ("MessageEvent", true, false), ("WebSocket", true, false)]

def undiciGlobals : List Key :=
  names ["FormData", "Headers", "Request", "Response", "MessageEvent", "CloseEvent", "WebSocket"]

def nodeEnumerableGlobals : List Key :=
  names ["global", "clearImmediate", "setImmediate", "clearInterval", "clearTimeout",
    "setInterval", "setTimeout", "queueMicrotask", "structuredClone", "atob", "btoa",
    "performance", "fetch", "crypto", "navigator"]

def nodeGlobals : List Key := nodeEnumerableGlobals ++ names ["Buffer", "globalThis"]

def browserTransportGlobals : List Key :=
  names ["postMessage", "onmessage", "onmessageerror", "close", "addEventListener",
    "removeEventListener", "dispatchEvent"]

def standIns : List Key := names ["Worker", "self"] ++ browserTransportGlobals

def localNames : List Key := names ["Promise", "navigator", "Navigator"] ++ standIns

def timerNames : List Key :=
  names ["setTimeout", "clearTimeout", "setInterval", "clearInterval", "setImmediate",
    "clearImmediate"]

variable {α β : Type*} [DecidableEq α] [DecidableEq β]

/-! ## The realm's global as an object -/

/-- The realm has the name, itself or from its prototypes: `key in host`. -/
def Realm.Has (r : Realm α β) (k : Key) : Prop :=
  k ∈ OrderedMap.keys r.own ∨ k ∈ OrderedMap.keys r.inherited

instance (r : Realm α β) (k : Key) : Decidable (r.Has k) := inferInstanceAs (Decidable (_ ∨ _))

/-- `Reflect.get(host, key, host)`. -/
def Realm.get (r : Realm α β) (k : Key) : Value α β :=
  match (OrderedMap.find k r.own).or (OrderedMap.find k r.inherited) with
  | none => .undefined
  | some ⟨.data v _, _, _⟩ => v
  | some ⟨.accessor none _, _, _⟩ => .undefined
  | some ⟨.accessor (some f) _, _, _⟩ => .answered f

/-- `Reflect.set(host, key, value, host)`: the realm, and whether it took the value. -/
def Realm.set (r : Realm α β) (k : Key) (v : Value α β) : Realm α β × Bool :=
  match OrderedMap.find k r.own with
  | some ⟨.data _ true, e, c⟩ =>
      ({ r with own := OrderedMap.set k ⟨.data v true, e, c⟩ r.own }, true)
  | some ⟨.data _ false, _, _⟩ | some ⟨.accessor _ none, _, _⟩ => (r, false)
  | some ⟨.accessor _ (some _), _, _⟩ => (r, true)
  | none =>
      match OrderedMap.find k r.inherited with
      | some ⟨.data _ false, _, _⟩ | some ⟨.accessor _ none, _, _⟩ => (r, false)
      | some ⟨.accessor _ (some _), _, _⟩ => (r, true)
      | some ⟨.data _ true, _, _⟩ | none =>
          ({ r with own := OrderedMap.set k (.assigned v) r.own }, true)

/-- `Reflect.defineProperty(host, key, descriptor)`. -/
def Realm.define (r : Realm α β) (k : Key) (d : Descriptor (Value α β) (Fn β)) : Realm α β × Bool :=
  let (own, ok) := r.own.define .undefined k d
  ({ r with own }, ok)

/-- The names of an object, as `Reflect.ownKeys` orders them: array indices, names, symbols. -/
def ownKeys (o : Globals α β) : List Key :=
  let keys := OrderedMap.keys o
  ((keys.filterMap Key.index?).mergeSort (· ≤ ·)).map .index ++
    keys.filter Key.isName ++ keys.filter Key.isSymbol

/-! ## A new guest -/

def standIn (k : Key) : Key × Property (Value α β) (Fn β) :=
  (k, ⟨.data .undefined true, false, true⟩)

def localGlobals : Globals α β :=
  [(.name "Promise", ⟨.data (.shared (.name "Promise")) true, false, true⟩),
   (.name "navigator", ⟨.accessor (some (.getter (.name "navigator"))) none, true, true⟩),
   (.name "Navigator",
    ⟨.accessor (some (.getter (.name "Navigator"))) (some (.setter (.name "Navigator"))),
      false, true⟩)] ++
  standIns.map standIn ++
  nodeGlobalAccessors.map fun (name, set, enumerable) =>
    (.name name,
      ⟨.accessor (some (.getter (.name name))) (if set then some (.setter (.name name)) else none),
        enumerable, true⟩)

def Guest.new (r : Realm α β) : Guest α β where
  target := localGlobals
  removed := names ["document", "window", "location"]
  guestAssigned := []
  held := []
  assignedProcess := none
  hostAtStart := OrderedMap.keys r.own

def standing (r : Realm α β) (p : ℕ) (k : Key) : Value α β :=
  if k ∈ names ["global", "globalThis"] then .guest p
  else if k ∈ names ["fetch"] ++ undiciGlobals ++ names ["URL", "Buffer", "MessageChannel", "MessagePort"] then
    .provided p k
  else if k = .name "performance" then .shared k
  else
    let value := r.get k
    if k ∈ names ["structuredClone"] ++ timerNames ∧ r.isFunction value then .bound p k value
    else if k = .name "WebAssembly" ∧ r.isObject value then .bound p k value
    else if k ∈ names ["atob", "btoa"] then .provided p k
    else if k = .name "queueMicrotask" ∧ r.isFunction value then .bound p k value
    else value

end GuestGlobal

end Tabnode

/-!
## The traps of a guest's global

What the proxy answers to each operation of its guest, and the checks by which a proxy
refuses an answer that contradicts its target.
-/

namespace Tabnode

namespace GuestGlobal

variable {α β : Type*} [DecidableEq α] [DecidableEq β]

/-- What a function is called on. -/
inductive Receiver
  | global
  | target
  deriving DecidableEq

/-- What an operation answers: a call that runs a program's own function answers with that
call, and `typeError` is the proxy's own refusal. -/
inductive Answer (α β : Type*)
  | value (v : Value α β)
  | done (ok : Bool)
  | keys (l : List Key)
  | descriptor (p : Option (Property (Value α β) (Fn β)))
  | called (f : Fn β) (receiver : Receiver) (args : List (Value α β))
  | threw
  | typeError
  deriving DecidableEq

/-- The operations of a program on its global. -/
inductive Op (α β : Type*)
  | get (k : Key)
  | set (k : Key) (v : Value α β)
  | has (k : Key)
  | delete (k : Key)
  | define (k : Key) (d : Descriptor (Value α β) (Fn β))
  | getOwn (k : Key)
  | ownKeys

/-! ### The engine's accessors -/

/-- What came of a call: one of the engine's accessors returned or threw, or the function is
a program's. -/
inductive Outcome (α β : Type*)
  | returned (v : Value α β)
  | threw
  | elsewhere

def accessorNames : List Key :=
  names ["navigator", "Navigator"] ++ nodeGlobalAccessors.map fun e => .name e.1

def accessorValue (r : Realm α β) (p : ℕ) (held : List (Key × Value α β)) (k : Key) : Value α β :=
  if k ∈ names ["navigator", "Navigator"] then .provided p k
  else (OrderedMap.find k held).getD (standing r p k)

/-- The descriptor by which `Navigator`'s setter replaces its accessor. -/
def navigatorDescriptor (v : Value α β) : Descriptor (Value α β) (Fn β) :=
  ⟨.data (some v) (some true) (.inl (by simp)), some false, some true⟩

/-- A call of a function, `v` being its argument, on an object and what its accessors hold. -/
def callFn (r : Realm α β) (p : ℕ) (object : Globals α β) (held : List (Key × Value α β))
    (f : Fn β) (v : Value α β) : (Globals α β × List (Key × Value α β)) × Outcome α β :=
  match f with
  | .getter k =>
      ((object, held),
        if k ∈ accessorNames then .returned (accessorValue r p held k) else .elsewhere)
  | .setter k =>
      if k = .name "Navigator" then
        let (object, ok) := object.define .undefined k (navigatorDescriptor v)
        ((object, held), if ok then .returned .undefined else .threw)
      else if k ∈ accessorNames then ((object, OrderedMap.set k v held), .returned .undefined)
      else ((object, held), .elsewhere)
  | .other _ => ((object, held), .elsewhere)

/-! ### Traps -/

abbrev Reply (α β : Type*) := Realm α β × Guest α β × Answer α β

def Guest.shadowed (g : Guest α β) (k : Key) : Bool := (OrderedMap.find k g.target).isSome

/-- `Reflect.get(target, key, guest)`. -/
def getTarget (r : Realm α β) (p : ℕ) (g : Guest α β) (property : Property (Value α β) (Fn β)) :
    Reply α β :=
  match property.content with
  | .data v _ => (r, g, .value v)
  | .accessor none _ => (r, g, .value .undefined)
  | .accessor (some f) _ =>
      let ((target, held), outcome) := callFn r p g.target g.held f .undefined
      (r, { g with target, held },
        match outcome with
        | .returned v => .value v
        | .threw => .threw
        | .elsewhere => .called f .global [])

def getTrap (r : Realm α β) (p : ℕ) (g : Guest α β) (k : Key) : Reply α β :=
  if k = .name "process" then
    (r, g, .value (if k ∈ g.removed then .undefined else g.assignedProcess.getD (.process p)))
  else
    match OrderedMap.find k g.target with
    | some property => getTarget r p g property
    | none => (r, g, .value (if k ∈ g.removed then .undefined else standing r p k))

/-- `Reflect.defineProperty(target, key, descriptor)`. -/
def defineTarget (r : Realm α β) (g : Guest α β) (k : Key) (d : Descriptor (Value α β) (Fn β)) :
    Reply α β :=
  let (target, ok) := g.target.define .undefined k d
  (r, { g with target }, .done ok)

/-- `Reflect.set(target, key, value, target)`. -/
def setTarget (r : Realm α β) (p : ℕ) (g : Guest α β) (k : Key)
    (property : Property (Value α β) (Fn β)) (v : Value α β) : Reply α β :=
  match property.content with
  | .data _ true =>
      (r, { g with target := OrderedMap.set k { property with content := .data v true } g.target },
        .done true)
  | .data _ false | .accessor _ none => (r, g, .done false)
  | .accessor _ (some f) =>
      let ((target, held), outcome) := callFn r p g.target g.held f v
      (r, { g with target, held },
        match outcome with
        | .returned _ => .done true
        | .threw => .threw
        | .elsewhere => .called f .target [v])

def Guest.unremove (g : Guest α β) (k : Key) : Guest α β :=
  { g with removed := g.removed.filter (· ≠ k) }

def setTrap (r : Realm α β) (p : ℕ) (g : Guest α β) (k : Key) (v : Value α β) : Reply α β :=
  let assigned : Descriptor (Value α β) (Fn β) := (Property.assigned v).descriptor
  if k ∈ standIns ∧ k ∉ g.guestAssigned then
    defineTarget r { g with guestAssigned := k :: g.guestAssigned } k assigned
  else if k = .name "process" then
    if v ≠ .process p then (r, { g.unremove k with assignedProcess := some v }, .done true)
    else ((r.set k v).1, { g.unremove k with assignedProcess := none }, .done (r.set k v).2)
  else
    match OrderedMap.find k g.target with
    | some property => setTarget r p g k property v
    | none =>
        if k ∈ g.removed then defineTarget r (g.unremove k) k assigned
        else if k ∈ nodeGlobals then
          defineTarget r g k
            { assigned with enumerable := some (decide (k ≠ .name "globalThis")) }
        else if (r.set k v).2 then ((r.set k v).1, g, .done true)
        else defineTarget (r.set k v).1 g k assigned

def hasTrap (r : Realm α β) (g : Guest α β) (k : Key) : Bool :=
  if k ∈ g.removed then false
  else if g.shadowed k then true
  else if k ∈ localNames then false
  else decide (k ∈ nodeGlobals ∨ r.Has k)

def deleteTrap (r : Realm α β) (g : Guest α β) (k : Key) : Reply α β :=
  if (g.target.delete k).2 then
    (r, { g with target := (g.target.delete k).1, removed := k :: g.removed }, .done true)
  else (r, g, .done false)

def pushKey (keys : List Key) (k : Key) : List Key := if k ∈ keys then keys else keys ++ [k]

def ownKeysTrap (r : Realm α β) (g : Guest α β) : List Key :=
  let standsBehind := fun k => decide (k ∉ localNames ∧ k ∉ g.removed)
  let keys := ((GuestGlobal.ownKeys r.own).filter standsBehind).foldl pushKey
    (GuestGlobal.ownKeys g.target)
  (nodeGlobals.filter standsBehind).foldl pushKey keys

def standingProperty (r : Realm α β) (p : ℕ) (g : Guest α β) (k : Key) :
    Option (Property (Value α β) (Fn β)) :=
  if k ∈ g.removed ∨ k ∈ localNames then none
  else if k = .name "process" then
    some ⟨.accessor (some (.getter k)) (some (.setter k)), false, true⟩
  else if k ∈ nodeGlobals then
    some ⟨.data (standing r p k) true, decide (k ≠ .name "globalThis"), true⟩
  else
    (OrderedMap.find k r.own).map fun property =>
      if property.enumerable ∧ k ∈ g.hostAtStart ∧ k ∉ nodeEnumerableGlobals then
        { property with configurable := true, enumerable := false }
      else { property with configurable := true }

def getOwnTrap (r : Realm α β) (p : ℕ) (g : Guest α β) (k : Key) :
    Option (Property (Value α β) (Fn β)) :=
  (OrderedMap.find k g.target).or (standingProperty r p g k)

/-- A descriptor over one of Node's value globals: what it leaves out is what the name had. -/
def overStanding (r : Realm α β) (p : ℕ) (k : Key) (d : Descriptor (Value α β) (Fn β)) :
    Descriptor (Value α β) (Fn β) where
  fields :=
    match d.fields with
    | .accessor get set _ =>
        .accessor (some (get.getD none)) (some (set.getD none)) (.inl (by simp))
    | .data value writable _ =>
        .data (some (value.getD (standing r p k))) (some (writable.getD true)) (.inl (by simp))
    | .generic => .data (some (standing r p k)) (some true) (.inl (by simp))
  enumerable := some (d.enumerable.getD (decide (k ≠ .name "globalThis")))
  configurable := some (d.configurable.getD true)

def defineTrap (r : Realm α β) (p : ℕ) (g : Guest α β) (k : Key)
    (d : Descriptor (Value α β) (Fn β)) : Reply α β :=
  if g.shadowed k then defineTarget r g k d
  else if k ∈ g.removed ∨ k ∈ nodeGlobals then
    let next := if k ∈ g.removed then d else overStanding r p k d
    if (g.target.define .undefined k next).2 then
      (r, { g.unremove k with target := (g.target.define .undefined k next).1 }, .done true)
    else (r, g, .done false)
  else if d.configurable = some false then defineTarget r g k d
  else if (r.define k d).2 then ((r.define k d).1, g, .done true)
  else defineTarget (r.define k d).1 g k d

/-! ### The checks of a proxy -/

def passes (ok : Prop) [Decidable ok] (a : Answer α β) : Answer α β := if ok then a else .typeError

def Pinned (target : Globals α β) (k : Key) (property : Property (Value α β) (Fn β)) : Prop :=
  OrderedMap.find k target = some property ∧ property.configurable = false

def GetAgrees (target : Globals α β) (k : Key) : Answer α β → Bool
  | .value v =>
      match OrderedMap.find k target with
      | some ⟨.data u false, _, false⟩ => u = v
      | some ⟨.accessor none _, _, false⟩ => v = .undefined
      | _ => true
  | _ => true

def SetAgrees (target : Globals α β) (k : Key) (v : Value α β) : Answer α β → Bool
  | .done true =>
      match OrderedMap.find k target with
      | some ⟨.data u false, _, false⟩ => u = v
      | some ⟨.accessor _ none, _, false⟩ => false
      | _ => true
  | _ => true

def AbsentAgrees (target : Globals α β) (k : Key) (absent : Bool) : Bool :=
  match absent, OrderedMap.find k target with
  | true, some property => property.configurable
  | _, _ => true

def ClaimsReadOnly : Property (Value α β) (Fn β) → Fields (Value α β) (Fn β) → Bool
  | ⟨.data _ true, _, false⟩, .data _ (some false) _ => true
  | _, _ => false

/-- A define that is reported done is one the target's property takes, and is pinned where
the target's is. -/
def DefineAgrees (target : Globals α β) (k : Key) (d : Descriptor (Value α β) (Fn β)) :
    Answer α β → Bool
  | .done true =>
      match OrderedMap.find k target with
      | none => d.configurable ≠ some false
      | some property =>
          decide (d.Compatible (some property)) &&
          !(decide (d.configurable = some false) && property.configurable) &&
          !ClaimsReadOnly property d.fields
  | _ => true

/-- A report is one the target's property takes, and is pinned where the target's is. -/
def ReportAgrees (target : Globals α β) (k : Key) :
    Option (Property (Value α β) (Fn β)) → Bool
  | none => AbsentAgrees target k true
  | some property =>
      decide (property.descriptor.Compatible (OrderedMap.find k target)) &&
      (property.configurable ||
        match OrderedMap.find k target with
        | none => false
        | some own => !own.configurable && !ClaimsReadOnly own property.descriptor.fields)

def KeysAgree (target : Globals α β) (l : List Key) : Bool :=
  decide l.Nodup && target.all fun e => e.2.configurable || decide (e.1 ∈ l)

/-! ### Operations -/

def World.perform (w : World α β) (p : ℕ) (op : Op α β) : World α β × Answer α β :=
  let r := w.realm
  let g := w.guests p
  let reply : Reply α β := match op with
    | .get k =>
        let (r, g, a) := getTrap r p g k
        (r, g, passes (GetAgrees g.target k a) a)
    | .set k v =>
        let (r, g, a) := setTrap r p g k v
        (r, g, passes (SetAgrees g.target k v a) a)
    | .has k =>
        (r, g, passes (AbsentAgrees g.target k (!hasTrap r g k)) (.done (hasTrap r g k)))
    | .delete k =>
        let (r, g, a) := deleteTrap r g k
        (r, g, passes (AbsentAgrees g.target k (decide (a = .done true))) a)
    | .define k d =>
        let (r, g, a) := defineTrap r p g k d
        (r, g, passes (DefineAgrees g.target k d a) a)
    | .getOwn k =>
        (r, g, passes (ReportAgrees g.target k (getOwnTrap r p g k))
          (.descriptor (getOwnTrap r p g k)))
    | .ownKeys => (r, g, passes (KeysAgree g.target (ownKeysTrap r g)) (.keys (ownKeysTrap r g)))
  (⟨reply.1, Function.update w.guests p reply.2.1⟩, reply.2.2)

def World.answers (w : World α β) : List (ℕ × Op α β) → List (Answer α β)
  | [] => []
  | (p, op) :: ops => (w.perform p op).2 :: World.answers (w.perform p op).1 ops

def World.new (r : Realm α β) : World α β := ⟨r, fun _ => Guest.new r⟩

end GuestGlobal

end Tabnode
