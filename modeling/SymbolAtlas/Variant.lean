/-
# SymbolAtlas.Variant -- how a symbol is addressed

Before a symbol gets a place in the graph it is classified: through its own
declarations, through what it is an alias of, as a member that overrides others,
as several members at once, or only through the place of its use.
-/
import SymbolAtlas.Oracle

set_option autoImplicit false

namespace SymbolAtlas

/-- The ways to address a symbol. -/
inductive Variant where
  /-- Addressed through its own declarations. -/
  | standard
  /-- Stands for another symbol, unless that cannot be resolved. -/
  | aliasOf (target : Option Symbol)
  /-- A member of a container; `bases` are the members of that name it builds on. -/
  | method (container : Symbol) (bases : List Symbol)
  /-- Stands for several members at the place of use. -/
  | composite (members : List Symbol)
  /-- Has no declaration but the place of its use. -/
  | transient
deriving DecidableEq, Repr, Inhabited

namespace Variant

/-- The name under which a variant is reported. -/
def name : Variant → String
  | standard => "standard"
  | aliasOf _ => "alias"
  | method _ _ => "method"
  | composite _ => "composite"
  | transient => "transient"

/-- Whether the place of use is the only declaration. -/
def isAtUse : Variant → Bool
  | composite _ | transient => true
  | _ => false

/-- The variant of a symbol that is neither an alias nor transient in the strict
sense: a member if it has a container. -/
def ofMember {μ : Type} (o : Oracle μ) (sym : Symbol) : StateM μ Variant := do
  if sym.flags.member then
    match ← o.containerOf sym with
    | some container =>
        let bases ← o.baseMembers container sym.name
        return .method container (bases.filter (·.key ≠ sym.key))
    | none => return .standard
  else return .standard

/-- The variant of a symbol as seen from a use. -/
def classify {μ : Type} (o : Oracle μ) (sym : Symbol) (use : Option NodeId) :
    StateM μ Variant := do
  if sym.flags.aliasing then
    return .aliasOf (← o.resolveAlias sym)
  else if sym.flags.transient then
    match ← o.compositeMembers sym use with
    | some members => return .composite members
    | none => if sym.flags.onlyTransient then return .transient else ofMember o sym
  else ofMember o sym

/-- The declarations through which a symbol of a variant is addressed. -/
def declarationsOf {μ : Type} (o : Oracle μ) (sym : Symbol) (use : Option NodeId)
    (v : Variant) : StateM μ (List NodeId) :=
  if v.isAtUse then pure use.toList else o.declarationsOf sym

/-! ## What is asked -/

theorem ofMember_eq {μ : Type} (o : Oracle μ) (sym : Symbol) (m : μ) :
    ofMember o sym m =
      if sym.flags.member then
        match o.containerOf sym m with
        | (some container, m) =>
            let (bases, m) := o.baseMembers container sym.name m
            (.method container (bases.filter (·.key ≠ sym.key)), m)
        | (none, m) => (.standard, m)
      else (.standard, m) := by
  unfold ofMember
  split
  · simp only [bind, StateT.bind]
    rcases o.containerOf sym m with ⟨_ | container, m'⟩ <;> rfl
  · rfl

theorem classify_eq {μ : Type} (o : Oracle μ) (sym : Symbol) (use : Option NodeId) (m : μ) :
    classify o sym use m =
      if sym.flags.aliasing then
        (.aliasOf (o.resolveAlias sym m).1, (o.resolveAlias sym m).2)
      else if sym.flags.transient then
        match o.compositeMembers sym use m with
        | (some members, m) => (.composite members, m)
        | (none, m) => if sym.flags.onlyTransient then (.transient, m) else ofMember o sym m
      else ofMember o sym m := by
  unfold classify
  split
  · rfl
  · split
    · simp only [bind, StateT.bind]
      rcases o.compositeMembers sym use m with ⟨_ | members, m'⟩
      · simp only []
        split <;> rfl
      · rfl
    · rfl

end Variant
end SymbolAtlas
