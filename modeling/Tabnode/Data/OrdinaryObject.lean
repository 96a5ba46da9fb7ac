import Tabnode.Data.OrderedMap

/-!
# Ordinary objects

Properties, the descriptors that define and change them, and the extensible objects that
hold them, as ECMAScript has them. A descriptor says about a property what its fields say
and leaves the rest; a property that is not configurable takes only what it has already.
-/

namespace Tabnode

variable {κ ν φ : Type*}

/-- What a property holds: a value, or the functions that stand for one. -/
inductive Content (ν φ : Type*)
  | data (value : ν) (writable : Bool)
  | accessor (get set : Option φ)
  deriving DecidableEq

/-- A property. -/
structure Property (ν φ : Type*) where
  content : Content ν φ
  enumerable : Bool
  configurable : Bool
  deriving DecidableEq

/-- The fields of a descriptor that say what a property holds; one of a kind is there. -/
inductive Fields (ν φ : Type*)
  | generic
  | data (value : Option ν) (writable : Option Bool) (given : value ≠ none ∨ writable ≠ none)
  | accessor (get set : Option (Option φ)) (given : get ≠ none ∨ set ≠ none)
  deriving DecidableEq

/-- A descriptor; an absent field says nothing. -/
structure Descriptor (ν φ : Type*) where
  fields : Fields ν φ
  enumerable : Option Bool
  configurable : Option Bool
  deriving DecidableEq

def Property.assigned (value : ν) : Property ν φ := ⟨.data value true, true, true⟩

def Property.descriptor (p : Property ν φ) : Descriptor ν φ where
  fields :=
    match p.content with
    | .data value writable => .data (some value) (some writable) (.inl (by simp))
    | .accessor get set => .accessor (some get) (some set) (.inl (by simp))
  enumerable := some p.enumerable
  configurable := some p.configurable

def Descriptor.create (undefined : ν) (d : Descriptor ν φ) : Property ν φ where
  content :=
    match d.fields with
    | .generic => .data undefined false
    | .data value writable _ => .data (value.getD undefined) (writable.getD false)
    | .accessor get set _ => .accessor (get.getD none) (set.getD none)
  enumerable := d.enumerable.getD false
  configurable := d.configurable.getD false

/-- What the fields make of what a property holds; a field of the other kind starts the
kind's fields from their defaults. -/
def Fields.change (undefined : ν) : Fields ν φ → Content ν φ → Content ν φ
  | .generic, c => c
  | .data value writable _, .data v w => .data (value.getD v) (writable.getD w)
  | .data value writable _, .accessor _ _ => .data (value.getD undefined) (writable.getD false)
  | .accessor get set _, .accessor g s => .accessor (get.getD g) (set.getD s)
  | .accessor get set _, .data _ _ => .accessor (get.getD none) (set.getD none)

def Descriptor.change (undefined : ν) (d : Descriptor ν φ) (p : Property ν φ) : Property ν φ where
  content := d.fields.change undefined p.content
  enumerable := d.enumerable.getD p.enumerable
  configurable := d.configurable.getD p.configurable

def Says {α : Type*} (field : Option α) (a : α) : Prop := ∀ b ∈ field, b = a

instance {α : Type*} [DecidableEq α] (field : Option α) (a : α) : Decidable (Says field a) :=
  match field with
  | none => .isTrue (by simp [Says])
  | some b => decidable_of_iff (b = a) (by simp [Says])

/-- The fields ask nothing of what a property that is not configurable holds but what it
has: a value that is not writable stays, and one that is may change or be made read-only. -/
def Fields.Allowed : Fields ν φ → Content ν φ → Prop
  | .generic, _ => True
  | .data value writable _, .data v w => w = true ∨ Says writable false ∧ Says value v
  | .accessor get set _, .accessor g s => Says get g ∧ Says set s
  | .data _ _ _, .accessor _ _ | .accessor _ _ _, .data _ _ => False

instance [DecidableEq ν] [DecidableEq φ] (fields : Fields ν φ) (content : Content ν φ) :
    Decidable (fields.Allowed content) :=
  match fields, content with
  | .generic, _ => inferInstanceAs (Decidable True)
  | .data value writable _, .data v w =>
      inferInstanceAs (Decidable (w = true ∨ Says writable false ∧ Says value v))
  | .accessor get set _, .accessor g s => inferInstanceAs (Decidable (Says get g ∧ Says set s))
  | .data _ _ _, .accessor _ _ | .accessor _ _ _, .data _ _ => inferInstanceAs (Decidable False)

def Descriptor.Compatible (d : Descriptor ν φ) : Option (Property ν φ) → Prop
  | none => True
  | some p =>
      p.configurable = true ∨
        d.configurable ≠ some true ∧ Says d.enumerable p.enumerable ∧ d.fields.Allowed p.content

instance [DecidableEq ν] [DecidableEq φ] (d : Descriptor ν φ) (p : Option (Property ν φ)) :
    Decidable (d.Compatible p) :=
  match p with
  | none => inferInstanceAs (Decidable True)
  | some p => inferInstanceAs (Decidable (p.configurable = true ∨
      d.configurable ≠ some true ∧ Says d.enumerable p.enumerable ∧ d.fields.Allowed p.content))

def Descriptor.apply (undefined : ν) (d : Descriptor ν φ) : Option (Property ν φ) → Property ν φ
  | none => d.create undefined
  | some p => d.change undefined p

/-- An extensible object without a prototype: its properties, in the order they were made. -/
abbrev PropertyMap (κ ν φ : Type*) := List (κ × Property ν φ)

namespace PropertyMap

variable [DecidableEq κ] [DecidableEq ν] [DecidableEq φ]

/-- `Reflect.defineProperty`: the object, and whether it took the descriptor. -/
def define (undefined : ν) (o : PropertyMap κ ν φ) (k : κ) (d : Descriptor ν φ) :
    PropertyMap κ ν φ × Bool :=
  if d.Compatible (OrderedMap.find k o) then
    (OrderedMap.set k (d.apply undefined (OrderedMap.find k o)) o, true)
  else (o, false)

/-- `Reflect.deleteProperty`. -/
def delete (o : PropertyMap κ ν φ) (k : κ) : PropertyMap κ ν φ × Bool :=
  match OrderedMap.find k o with
  | none => (o, true)
  | some p => if p.configurable then (OrderedMap.erase k o, true) else (o, false)

end PropertyMap

namespace Descriptor

variable {u : ν} {d : Descriptor ν φ} {p : Property ν φ}

theorem says_getD {α : Type*} (field : Option α) (a : α) : Says field (field.getD a) := by
  cases field <;> simp [Says]

theorem allowed_change (fields : Fields ν φ) (content : Content ν φ) :
    fields.Allowed (fields.change u content) := by
  have hdata : ∀ (value : Option ν) (writable : Option Bool) (v : ν) (w : Bool),
      writable.getD w = true ∨ Says writable false ∧ Says value (value.getD v) := by
    intro value writable v w
    have hfalse : Says (some false) false := by simp [Says]
    cases writable with
    | none =>
      cases w with
      | false => exact .inr ⟨by simp [Says], says_getD value v⟩
      | true => exact .inl rfl
    | some w =>
      cases w with
      | false => exact .inr ⟨hfalse, says_getD value v⟩
      | true => exact .inl rfl
  cases fields with
  | generic => trivial
  | data value writable =>
    cases content with
    | data v w => exact hdata value writable v w
    | accessor get set => exact hdata value writable u false
  | accessor get set =>
    cases content with
    | data v w => exact ⟨says_getD get none, says_getD set none⟩
    | accessor g s => exact ⟨says_getD get g, says_getD set s⟩

theorem compatible_apply (u : ν) (d : Descriptor ν φ) (current : Option (Property ν φ)) :
    d.Compatible (some (d.apply u current)) := by
  have hconfigurable : ∀ c : Bool, d.configurable.getD c = true ∨ d.configurable ≠ some true := by
    intro c
    cases d.configurable with
    | none => simp
    | some c => cases c <;> simp
  cases current with
  | none =>
    rcases hconfigurable false with h | h
    · exact .inl h
    · refine .inr ⟨h, says_getD _ _, ?_⟩
      have hsame : (d.create u).content = d.fields.change u (.data u false) ∨
          ∃ get set, (d.create u).content = d.fields.change u (.accessor get set) := by
        unfold create
        cases d.fields with
        | generic | data _ _ | accessor _ _ => exact .inl rfl
      rcases hsame with heq | ⟨get, set, heq⟩
      · exact heq ▸ allowed_change d.fields _
      · exact heq ▸ allowed_change d.fields _
  | some p =>
    rcases hconfigurable p.configurable with h | h
    · exact .inl h
    · exact .inr ⟨h, says_getD _ _, allowed_change d.fields p.content⟩

theorem compatible_descriptor (p : Property ν φ) : p.descriptor.Compatible (some p) := by
  obtain ⟨content, enumerable, configurable⟩ := p
  cases content with
  | data v w =>
    cases configurable <;> cases w <;>
      simp [Compatible, Property.descriptor, Says, Fields.Allowed]
  | accessor g s => cases configurable <;> simp [Compatible, Property.descriptor, Says, Fields.Allowed]

theorem configurable_apply (h : d.configurable = some false) (current : Option (Property ν φ)) :
    (d.apply u current).configurable = false := by
  cases current <;> simp [apply, create, change, h]

end Descriptor

end Tabnode
