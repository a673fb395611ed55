/-
# SymbolAtlas.Proofs.Naming.Titles -- names that the program gives

The number in a name depends on what was named before.  Where no two declarations whose containers
are written alike have one name, and none may be repeated, no number is ever given: a place has the
name that it has in the program (`Portrait.title`), whatever was named before it.

`Namer.Faithful` says that a namer gave such names so far, and that it counted only what it
remembers.  A declaration that is resolved for the first time was therefore never counted, and
since containers lie less deep than what they contain, resolving its container does not count it
either (`settles_resolveWith`).
-/
import SymbolAtlas.Proofs.Naming.Collisions
import SymbolAtlas.Proofs.Oracle.Portrait

set_option autoImplicit false

namespace SymbolAtlas

/-- A name, if it is global. -/
def SymbolName.global? : SymbolName → Option SymbolName
  | .localName _ => none
  | name => some name

/-- The global name that something is resolved to. -/
def globalOf (r : Resolved) : Option SymbolName := r.bind SymbolName.global?

/-- A name with one more descriptor; nothing below a local name, and nothing without a name. -/
def SymbolName.extended (name : String) (suffix : Suffix) : SymbolName → Option SymbolName
  | .localName _ => none
  | .globalName scheme package ds =>
      if name = "" then none else some (.globalName scheme package (ds ++ [⟨name, suffix⟩]))

namespace SymbolName

theorem isLocal_of_global? {name : SymbolName} : name.isLocal = name.global?.isNone := by
  cases name <;> rfl

theorem global?_eq_some {name other : SymbolName} (h : name.global? = some other) :
    name = other := by
  cases name with
  | localName => cases h
  | globalName => exact Option.some.inj h

theorem global?_extended {name : String} {suffix : Suffix} {container title : SymbolName}
    (h : extended name suffix container = some title) : title.global? = some title := by
  cases container with
  | localName => cases h
  | globalName scheme package ds =>
      simp only [extended] at h
      split at h
      · cases h
      · exact Option.some.inj h ▸ rfl

end SymbolName

namespace Portrait

variable {π : Type} (P : Portrait π) (n₀ : Namer)

/-- The name of a place below its container; `n₀` says how files are named. -/
def entitle (x : π) (container : Option SymbolName) : Option SymbolName :=
  match Namer.suffix? (P.face x).kind with
  | some suffix => container.bind (SymbolName.extended (P.face x).name suffix)
  | none =>
      match (P.face x).kind with
      | .file => n₀.ofFile (P.face x).file
      | .package | .group => container
      | _ => none

/-- The name of a place, with at most `fuel` containers. -/
def titleWith : Nat → π → Option SymbolName
  | 0, _ => none
  | fuel + 1, x => P.entitle n₀ x ((P.above x).bind (titleWith fuel))

/-- The global name of a place, if it has one. -/
def title (x : π) : Option SymbolName := P.titleWith n₀ (P.depth x + 1) x

/-- Where a declaration is named: the key of its container, and its own name. -/
def address {κ : Type} (key : SymbolName → κ) (x : π) : Option (κ × String) :=
  if (Namer.suffix? (P.face x).kind).isSome ∧ (P.face x).name ≠ "" then
    ((P.owner x).bind (P.title n₀)).map fun container => (key container, (P.face x).name)
  else none

/-- The global name of a symbol: that of its first declaration, if it is addressed through its
declarations. -/
def titleOf (key : String) : Option SymbolName :=
  if (P.outline key).isAtUse then none else (P.declarations key).head?.bind (P.title n₀)

/-- No two declarations share a container and a name, and none may be repeated.  Containers are
told apart by their keys; the namer tells them apart by their texts. -/
structure Apart {κ : Type} (key : SymbolName → κ) : Prop where
  alone : ∀ x y at_, P.address n₀ key x = some at_ → P.address n₀ key y = some at_ → x = y
  once : ∀ x, (P.address n₀ key x).isSome → (P.face x).redeclarable = false

variable {P n₀}

theorem titleWith_of_depth {fuel fuel' : Nat} {x : π} (deep : P.depth x < fuel)
    (deep' : P.depth x < fuel') : P.titleWith n₀ fuel x = P.titleWith n₀ fuel' x := by
  induction fuel generalizing fuel' x with
  | zero => cases deep
  | succ fuel ih =>
      cases fuel' with
      | zero => cases deep'
      | succ fuel' =>
          have same : (P.above x).bind (P.titleWith n₀ fuel) =
              (P.above x).bind (P.titleWith n₀ fuel') := by
            cases up : P.above x with
            | none => rfl
            | some y =>
                have less := P.depth_above x y up
                exact ih (by omega) (by omega)
          rw [titleWith, titleWith, same]

/-- **A place is named below its container.** -/
theorem title_eq (x : π) : P.title n₀ x = P.entitle n₀ x ((P.above x).bind (P.title n₀)) := by
  have same : (P.above x).bind (P.titleWith n₀ (P.depth x)) = (P.above x).bind (P.title n₀) := by
    cases up : P.above x with
    | none => rfl
    | some y => exact titleWith_of_depth (P.depth_above x y up) (Nat.lt_succ_self _)
  rw [title, titleWith, same]

/-- What holds of the names of files, and of a name with one more descriptor, holds of titles. -/
theorem title_induction {Good : SymbolName → Prop}
    (file : ∀ path name, n₀.ofFile path = some name → Good name)
    (extended : ∀ container name suffix title, suffix ≠ .bare → Good container →
      SymbolName.extended name suffix container = some title → Good title)
    {x : π} {name : SymbolName} (title : P.title n₀ x = some name) : Good name := by
  unfold Portrait.title at title
  generalize P.depth x + 1 = fuel at title
  induction fuel generalizing x name with
  | zero => cases title
  | succ fuel ih =>
      rw [titleWith, entitle] at title
      have inherited {container : SymbolName}
          (here : (P.above x).bind (P.titleWith n₀ fuel) = some container) : Good container := by
        obtain ⟨above, -, named⟩ := Option.bind_eq_some_iff.1 here
        exact ih named
      cases kind : Namer.suffix? (P.face x).kind with
      | some suffix =>
          rw [kind] at title
          obtain ⟨container, here, longer⟩ := Option.bind_eq_some_iff.1 title
          exact extended container _ suffix name (Namer.marked_of_suffix? kind) (inherited here)
            longer
      | none =>
          rw [kind] at title
          dsimp only at title
          split at title
          · exact file _ _ title
          · exact inherited title
          · exact inherited title
          · cases title

theorem above_of_suffix {x : π} {suffix : Suffix}
    (kind : Namer.suffix? (P.face x).kind = some suffix) : P.above x = P.owner x := by
  unfold above Face.above
  rw [kind]

theorem above_of_package {x : π} (kind : (P.face x).kind = .package) : P.above x = P.parent x := by
  unfold above Face.above
  rw [kind]
  rfl

theorem above_of_group {x : π} (kind : (P.face x).kind = .group) : P.above x = P.owner x := by
  unfold above Face.above
  rw [kind]
  rfl

theorem title_of_suffix {x : π} {suffix : Suffix}
    (kind : Namer.suffix? (P.face x).kind = some suffix) :
    P.title n₀ x = ((P.owner x).bind (P.title n₀)).bind
      (SymbolName.extended (P.face x).name suffix) := by
  rw [title_eq, above_of_suffix kind, entitle, kind]

/-- The key of the container is read off the container. -/
theorem address_map {κ : Type} {key : SymbolName → κ} {x : π} : P.address n₀ key x =
    (P.address n₀ (fun container => container) x).map fun at_ => (key at_.1, at_.2) := by
  unfold address
  split
  · rw [Option.map_map]
    rfl
  · rfl

/-- A container is a place with a global name. -/
theorem exists_title_of_address {x : π} {container : SymbolName} {name : String}
    (here : P.address n₀ (fun container => container) x = some (container, name)) :
    ∃ above, P.title n₀ above = some container := by
  unfold address at here
  split at here
  · obtain ⟨container', title, same⟩ := Option.map_eq_some_iff.1 here
    obtain ⟨above, -, title⟩ := Option.bind_eq_some_iff.1 title
    exact ⟨above, (Prod.mk.inj same).1 ▸ title⟩
  · cases here

/-- An identifier has no global name. -/
theorem title_of_identifier {x : π} (kind : (P.face x).kind = .identifier) :
    P.title n₀ x = none := by
  rw [title_eq, entitle, kind]
  rfl

end Portrait

namespace Namer

variable {μ π : Type}

/-! ## Names of files -/

theorem ofFile_congr {n n₀ : Namer} (scheme : n.scheme = n₀.scheme)
    (locate : n.locate = n₀.locate) : n.ofFile = n₀.ofFile := by
  unfold ofFile
  rw [scheme, locate]

/-- Files have global names, if any. -/
theorem globalOf_ofFile (n : Namer) (path : String) : globalOf (n.ofFile path) = n.ofFile path := by
  unfold ofFile
  cases n.locate path <;> rfl

/-! ## Faithful namers -/

/-- The namer gave the names of the program so far, and counted only what it remembers. -/
structure Faithful (P : Portrait π) (r : Recall μ π) (n n₀ : Namer) (m : μ) :
    Prop where
  scheme : n.scheme = n₀.scheme
  locate : n.locate = n₀.locate
  memo : ∀ id res, n.memo.get? id = some res → ∃ x, r.reads m id = some x ∧
    globalOf res = P.title n₀ x
  counted : ∀ text name, 0 < n.count text name → ∃ id x, (n.memo.get? id).isSome = true ∧
    r.reads m id = some x ∧ P.address n₀ SymbolName.render x = some (text, name)

/-- What `n'` remembers and `n` does not lies no deeper than a place. -/
def Inward (P : Portrait π) (r : Recall μ π) (n n' : Namer) (x : Option π) (m : μ) : Prop :=
  ∀ id, (n'.memo.get? id).isSome = true → n.memo.get? id = none →
    ∃ top ∈ x, ∃ y, r.reads m id = some y ∧ P.depth y ≤ P.depth top

/-- What resolving a place, or none, comes to from `n`: its name in the program, and a namer that
remembers nothing new that lies deeper. -/
structure Settles (P : Portrait π) (n₀ : Namer) (r : Recall μ π) (n : Namer) (x : Option π)
    (res : Resolved) (n' : Namer) (m' : μ) : Prop where
  title : globalOf res = x.bind (P.title n₀)
  faithful : n'.Faithful P r n₀ m'
  inward : n.Inward P r n' x m'

section Spec

variable {o : Oracle μ} {start m m' : μ} {P : Portrait π} {r : Recall μ π} {n₀ n : Namer}

theorem faithful_start (m : μ) : n₀.memo = .empty → n₀.counters = .empty →
    n₀.Faithful P r n₀ m := by
  intro memo counters
  refine ⟨rfl, rfl, fun id res known => ?_, fun text name counted => ?_⟩
  · rw [memo, Table.get?_empty] at known
    cases known
  · unfold count at counted
    rw [counters, Table.get?_empty] at counted
    cases counted

theorem Faithful.later (portrays : o.Portrays start P r) (h : n.Faithful P r n₀ m)
    (later : o.Later m m') : n.Faithful P r n₀ m' := by
  refine ⟨h.scheme, h.locate, fun id res known => ?_, fun text name counted => ?_⟩
  · obtain ⟨x, read, title⟩ := h.memo id res known
    exact ⟨x, portrays.reads_later read later, title⟩
  · obtain ⟨id, x, known, read, address⟩ := h.counted text name counted
    exact ⟨id, x, known, portrays.reads_later read later, address⟩

theorem Faithful.newLocal (h : n.Faithful P r n₀ m) : n.newLocal.2.Faithful P r n₀ m :=
  ⟨h.scheme, h.locate, h.memo, h.counted⟩

theorem isSome_remember_iff {id other : NodeId} {res : Resolved} :
    ((n.remember id res).memo.get? other).isSome ↔ id = other ∨ (n.memo.get? other).isSome := by
  rw [get?_remember]
  split <;> simp [*]

/-- What a node is resolved to may be remembered. -/
theorem Faithful.remember (h : n.Faithful P r n₀ m) {id : NodeId} {x : π} {res : Resolved}
    (read : r.reads m id = some x) (title : globalOf res = P.title n₀ x) :
    (n.remember id res).Faithful P r n₀ m := by
  refine ⟨h.scheme, h.locate, fun other res' known => ?_, fun text name counted => ?_⟩
  · rw [get?_remember] at known
    split at known
    · rename_i own
      obtain rfl := Option.some.inj known
      exact ⟨x, own ▸ read, title⟩
    · exact h.memo other res' known
  · obtain ⟨other, y, known, read', address⟩ := h.counted text name counted
    exact ⟨other, y, isSome_remember_iff.2 (.inr known), read', address⟩

/-- A declaration that is counted is remembered. -/
theorem Faithful.remember_counted (h : n.Faithful P r n₀ m) {id : NodeId} {x : π}
    {res : Resolved} {text name : String} (read : r.reads m id = some x)
    (title : globalOf res = P.title n₀ x) (address : P.address n₀ SymbolName.render x =
    some (text, name)) : ((n.counted text name).remember id res).Faithful P r n₀ m := by
  have remembered := h.remember read title
  refine ⟨h.scheme, h.locate, remembered.memo, fun text' name' counted => ?_⟩
  replace counted : 0 < (n.counted text name).count text' name' := counted
  rw [count_counted] at counted
  split at counted
  · rename_i same
    exact ⟨id, x, by rw [Namer.remember, Table.get?_insert_self]; rfl, read, same ▸ address⟩
  · exact remembered.counted text' name' counted

/-- A node may be remembered after what lies above it. -/
theorem Inward.remember {n' : Namer} {x : Option π} {id : NodeId} {y : π} {res : Resolved}
    (h : n.Inward P r n' x m) (read : r.reads m id = some y)
    (above : ∀ top ∈ x, P.depth top ≤ P.depth y) : n.Inward P r (n'.remember id res) (some y) m := by
  intro other known new
  rw [get?_remember] at known
  split at known
  · rename_i own
    exact ⟨y, rfl, y, own ▸ read, Nat.le_refl _⟩
  · obtain ⟨top, member, z, read', deep⟩ := h other known new
    exact ⟨y, rfl, z, read', Nat.le_trans deep (above top member)⟩

theorem inward_refl (x : Option π) : n.Inward P r n x m := by
  intro id known new
  rw [new] at known
  cases known

theorem numbered_of_once {node : Node} {x : π} (face : node.face = P.face x)
    (once : (P.face x).redeclarable = false) : numbered node 0 = (P.face x).name := by
  have redeclarable : node.redeclarable = false := (congrArg Face.redeclarable face).trans once
  unfold numbered
  rw [if_neg (by simp [redeclarable])]
  exact congrArg Face.name face

/-- **A declaration is named below its container**, and without a number: if it was counted, it
would be remembered already. -/
theorem settles_below (portrays : o.Portrays start P r) (apart : P.Apart n₀ SymbolName.render)
    {id : NodeId} {x : π} {node : Node} {container : Resolved} {n₁ : Namer} {suffix : Suffix}
    (first : Settles P n₀ r n (P.owner x) container n₁ m) (read : r.reads m id = some x)
    (new : n.memo.get? id = none) (kind : suffix? (P.face x).kind = some suffix)
    (face : node.face = P.face x) :
    Settles P n₀ r n (some x) (some (n₁.below container node suffix).1)
      ((n₁.below container node suffix).2.remember id
        (some (n₁.below container node suffix).1)) m := by
  have title : P.title n₀ x = _ := P.title_of_suffix kind
  rw [← first.title] at title
  have deeper : ∀ top ∈ P.owner x, P.depth top < P.depth x := fun top member =>
    P.depth_above x top ((P.above_of_suffix kind).trans member)
  have inward : ∀ res, n.Inward P r (n₁.remember id res) (some x) m := fun res =>
    first.inward.remember read fun top member => Nat.le_of_lt (deeper top member)
  have name : node.name = (P.face x).name := congrArg Face.name face
  have locally : P.title n₀ x = none → Settles P n₀ r n (some x) (some n₁.newLocal.1)
      (n₁.newLocal.2.remember id (some n₁.newLocal.1)) m := by
    intro none
    refine ⟨?_, first.faithful.newLocal.remember read ?_, inward _⟩
    · rw [Option.bind_some, none]
      rfl
    · rw [none]
      rfl
  rcases container with _ | ⟨scheme, package, ds⟩ | number
  case none => exact locally title
  case some.localName => exact locally title
  have global : globalOf (some (.globalName scheme package ds)) =
      some (.globalName scheme package ds) := rfl
  rw [global, Option.bind_some, SymbolName.extended, ← name] at title
  rw [below_global]
  by_cases blank : node.name = ""
  · rw [if_pos blank] at title
    simp only [if_pos blank]
    exact locally title
  rw [if_neg blank] at title
  simp only [if_neg blank]
  have address : P.address n₀ SymbolName.render x =
      some ((SymbolName.globalName scheme package ds).render, node.name) := by
    rw [Portrait.address, if_pos ⟨by simp [kind], name ▸ blank⟩, ← first.title, global,
      Option.map_some, name]
  have seen : n₁.count (SymbolName.globalName scheme package ds).render node.name = 0 := by
    refine Nat.eq_zero_of_not_pos fun counted => ?_
    obtain ⟨other, y, known, read', address'⟩ := first.faithful.counted _ _ counted
    obtain rfl := apart.alone x y _ address address'
    obtain rfl := portrays.reads_inj read read'
    obtain ⟨top, member, z, read'', deep⟩ := first.inward id known new
    obtain rfl := Option.some.inj (read.symm.trans read'')
    exact absurd (deeper top member) (Nat.not_lt.2 deep)
  rw [seen, numbered_of_once face (apart.once x (by rw [address]; rfl)), ← name]
  refine ⟨?_, first.faithful.remember_counted read ?_ address, inward _⟩
  · rw [Option.bind_some, title]
    rfl
  · rw [title]
    rfl

/-- What resolves places comes to their names. -/
theorem settles_derive (portrays : o.Portrays start P r) (apart : P.Apart n₀ SymbolName.render)
    {resolve : Option NodeId → Namer → Climbing μ (Resolved × Namer)} {fuel : Nat}
    (spec : ∀ {id x n m}, r.Sees m id x → (∀ y ∈ x, P.depth y < fuel) → n.Faithful P r n₀ m →
      ∃ res n' m', resolve id n m = (.ok (res, n'), m') ∧ o.Later m m' ∧
        Settles P n₀ r n x res n' m')
    (h : n.Faithful P r n₀ m) {id : NodeId} {x : π} (read : r.reads m id = some x)
    (new : n.memo.get? id = none) (deep : P.depth x < fuel + 1) :
    ∃ res n' m', n.derive o resolve id (o.node id m) m = (.ok (res, n'), m') ∧
      Settles P n₀ r n (some x) res (n'.remember id res) m' := by
  have face := portrays.face read
  have kind_ : (o.node id m).kind = (P.face x).kind := congrArg Face.kind face
  have asked : o.Later m (o.owner id m).2 := .single (.quiet (.owner id m))
  have less : ∀ y ∈ P.above x, P.depth y < fuel := fun y up => by
    have := P.depth_above x y up
    omega
  have title : P.title n₀ x = _ := P.title_eq x
  have passed : ∀ {y : Option π} {res n₁ m₁}, Settles P n₀ r n y res n₁ m₁ → o.Later m m₁ →
      P.above x = y → y.bind (P.title n₀) = P.title n₀ x →
      Settles P n₀ r n (some x) res (n₁.remember id res) m₁ := by
    intro y res n₁ m₁ settled later up same
    have read' := portrays.reads_later read later
    refine ⟨settled.title.trans same,
      settled.faithful.remember read' (settled.title.trans same), ?_⟩
    exact settled.inward.remember read' fun top member =>
      Nat.le_of_lt (P.depth_above x top (up.trans member))
  have alone : ∀ res, globalOf res = P.title n₀ x →
      Settles P n₀ r n (some x) res (n.remember id res) m := fun res same =>
    ⟨same, h.remember read same, (inward_refl none).remember read (by simp)⟩
  rw [derive_eq, kind_]
  cases kind : suffix? (P.face x).kind with
  | some suffix =>
      have up := P.above_of_suffix kind
      obtain ⟨container, n₁, m₁, above, later, settled⟩ :=
        spec (portrays.owner read) (up ▸ less) (h.later portrays asked)
      have read' := portrays.reads_later read (asked.trans later)
      simp only [above]
      exact ⟨_, _, _, rfl, settles_below portrays apart settled read' new kind face⟩
  | none =>
      rw [Portrait.entitle, kind] at title
      simp only
      cases sort : (P.face x).kind with
      | file =>
          simp only [sort] at title ⊢
          refine ⟨_, _, _, rfl, alone _ ?_⟩
          have path : (o.node id m).file = (P.face x).file := congrArg Face.file face
          rw [ofFile_congr h.scheme h.locate, globalOf_ofFile, path, title]
      | package =>
          have up := P.above_of_package sort
          simp only [sort, up] at title ⊢
          obtain ⟨res, n₁, m₁, above, later, settled⟩ := spec (portrays.parent read) (up ▸ less) h
          exact ⟨_, _, _, above, passed settled later up title.symm⟩
      | group =>
          have up := P.above_of_group sort
          simp only [sort, up] at title ⊢
          obtain ⟨res, n₁, m₁, above, later, settled⟩ :=
            spec (portrays.owner read) (up ▸ less) (h.later portrays asked)
          exact ⟨_, _, _, above, passed settled (asked.trans later) up title.symm⟩
      | block | signature =>
          simp only [sort] at title ⊢
          exact ⟨_, _, _, rfl, alone none title.symm⟩
      | _ =>
          simp only [sort] at title ⊢
          have locally := alone (some n.newLocal.1) title.symm
          exact ⟨_, _, _, rfl, locally.title, h.newLocal.remember read title.symm, locally.inward⟩

/-- **Resolving a place comes to its name in the program**, whatever was resolved before. -/
theorem settles_resolveWith (portrays : o.Portrays start P r) (apart : P.Apart n₀ SymbolName.render)
    (fuel : Nat)
    {id : Option NodeId} {x : Option π} (sees : r.Sees m id x) (deep : ∀ y ∈ x, P.depth y < fuel)
    (h : n.Faithful P r n₀ m) :
    ∃ res n' m', resolveWith o fuel id n m = (.ok (res, n'), m') ∧ o.Later m m' ∧
      Settles P n₀ r n x res n' m' := by
  induction fuel generalizing id x n m with
  | zero =>
      cases id with
      | none =>
          obtain rfl := sees.eq_none
          exact ⟨_, _, _, rfl, .refl, rfl, h, inward_refl none⟩
      | some id =>
          obtain ⟨y, rfl, -⟩ := sees.exists_of_some
          exact absurd (deep y rfl) (Nat.not_lt_zero _)
  | succ fuel ih =>
      cases id with
      | none =>
          obtain rfl := sees.eq_none
          exact ⟨_, _, _, rfl, .refl, rfl, h, inward_refl none⟩
      | some id =>
          obtain ⟨y, rfl, read⟩ := sees.exists_of_some
          have later := (o.hushed_resolveWith (fuel + 1) (some id) n m).later
          rw [resolveWith_succ] at later ⊢
          cases known : n.memo.get? id with
          | some res =>
              obtain ⟨z, read', title⟩ := h.memo id res known
              obtain rfl := Option.some.inj (read.symm.trans read')
              exact ⟨_, _, _, rfl, .refl, title, h, inward_refl _⟩
          | none =>
              obtain ⟨res, n', m', derived, settled⟩ :=
                settles_derive portrays apart ih h read known (deep y rfl)
              rw [known, derived] at later
              rw [derived]
              exact ⟨_, _, _, rfl, later, settled⟩

/-- The name that a place is given is its name in the program, or local where that has none. -/
theorem faithful_nameOf? (portrays : o.Portrays start P r) (apart : P.Apart n₀ SymbolName.render)
    {id : NodeId} {x : π} (read : r.reads m id = some x) (h : n.Faithful P r n₀ m) :
    ∃ name n' m', n.nameOf? o (some id) m = (.ok (name, n'), m') ∧
      name.global? = P.title n₀ x ∧ n'.Faithful P r n₀ m' := by
  have sees : r.Sees m (some id) (some x) := congrArg some read
  have deep : ∀ y ∈ some x, P.depth y < o.size + 1 := fun y _ =>
    Nat.lt_succ_of_le (portrays.depth y)
  obtain ⟨res, n', m', resolved, later, settled⟩ :=
    settles_resolveWith portrays apart (o.size + 1) sees deep h
  rw [nameOf?_eq, resolved]
  cases res with
  | none =>
      have none : P.title n₀ x = none := settled.title.symm
      refine ⟨_, _, _, rfl, none.symm,
        settled.faithful.newLocal.remember (portrays.reads_later read later) ?_⟩
      rw [none]
      rfl
  | some name => exact ⟨_, _, _, rfl, settled.title, settled.faithful⟩

/-- **Something with these declarations is named as the first of them is in the program.** -/
theorem faithful_nameFirst? (portrays : o.Portrays start P r) (apart : P.Apart n₀ SymbolName.render)
    {declarations : List NodeId} {places : List π}
    (read : declarations.map (r.reads m) = places.map some) (h : n.Faithful P r n₀ m) :
    ∃ name n' m', n.nameFirst? o declarations m = (.ok (name, n'), m') ∧
      name.global? = places.head?.bind (P.title n₀) ∧ n'.Faithful P r n₀ m' := by
  cases declarations with
  | nil =>
      obtain rfl : places = [] := List.map_eq_nil_iff.1 read.symm
      exact ⟨_, _, _, rfl, rfl, h.newLocal⟩
  | cons first rest =>
      cases places with
      | nil => cases read
      | cons x places => exact faithful_nameOf? portrays apart (List.cons.inj read).1 h

end Spec

end Namer
end SymbolAtlas
