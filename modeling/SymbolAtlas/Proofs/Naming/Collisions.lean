/-
# SymbolAtlas.Proofs.Naming.Collisions -- when two declarations get one name

A namer numbers the declarations of one name below one container, and the container
counts by its text.  So two declarations of the same name never get the same text.  But
the number is put behind the name, and nothing reserves the result: `init` with the
number 0 and a declared `init0` are written alike.

`render_eq_iff` says that this is all that can happen: two declarations that are asked
for in any order have one text exactly if they have different names, lie below one text
and are alike once they are numbered.  The invariant is `Orderly`: every global name of a
declaration was placed below a container with a number that is still below the count.
-/
import SymbolAtlas.Naming
import SymbolAtlas.Proofs.Naming.Rendering
import SymbolAtlas.Sketch

set_option autoImplicit false

namespace SymbolAtlas

open Descriptor (Closed)

theorem SymbolName.render_append (scheme : String) (package : PackageInfo) (ds : List Descriptor)
    (d : Descriptor) :
    (globalName scheme package (ds ++ [d])).render =
      (globalName scheme package ds).render ++ d.render := by
  simp only [render, List.map_append, List.map_cons, List.map_nil, String.join_append,
    String.append_assoc]
  simp [String.join]

namespace Namer

/-! ## Numbers behind names -/

theorem toString_inj {i j : Nat} (h : toString i = toString j) : i = j := by
  have digits := congrArg String.toList h
  simp only [Nat.toString_eq_ofList_toDigits, String.toList_ofList] at digits
  rw [← Nat.ofDigitChars_ten_toDigits (n := i), digits, Nat.ofDigitChars_ten_toDigits]

theorem append_toString_ne (name : String) (seen : Nat) : name ++ toString seen ≠ name := by
  intro h
  have digits := congrArg String.toList h
  simp [Nat.toDigits_ne_nil] at digits

/-- Declarations of one name are told apart by their numbers. -/
theorem numbered_inj {node node' : Node} {seen seen' : Nat} (same : node.name = node'.name)
    (h : numbered node seen = numbered node' seen') : seen = seen' := by
  unfold numbered at h
  rw [← same] at h
  split at h <;> split at h
  · exact toString_inj (String.append_right_inj _ |>.1 h)
  · exact absurd h (append_toString_ne _ _)
  · exact absurd h.symm (append_toString_ne _ _)
  · omega

theorem marked_of_suffix? {kind : NodeKind} {suffix : Suffix} (h : suffix? kind = some suffix) :
    suffix ≠ .bare := by
  rintro rfl
  cases kind <;> simp [suffix?] at h

/-! ## Names in order -/

/-- How many declarations of a name were counted below a text. -/
def count (n : Namer) (text name : String) : Nat := (n.counters.get? (text, name)).getD 0

/-- `name` places the node `id` below a container with this text, as the declaration of its
name with the number `seen`. -/
def Placed (tree : NodeId → Node) (id : NodeId) (name : SymbolName) (text : String)
    (seen : Nat) : Prop :=
  ∃ scheme package ds suffix, suffix? (tree id).kind = some suffix ∧
    (SymbolName.globalName scheme package ds).render = text ∧
    name = .globalName scheme package (ds ++ [⟨numbered (tree id) seen, suffix⟩])

variable {tree : NodeId → Node}

theorem Placed.unique {id : NodeId} {name : SymbolName} {text text' : String} {seen seen' : Nat}
    (h : Placed tree id name text seen) (h' : Placed tree id name text' seen') :
    text = text' ∧ seen = seen' := by
  obtain ⟨scheme, package, ds, suffix, -, rfl, rfl⟩ := h
  obtain ⟨_, _, ds', _, -, rfl, same⟩ := h'
  obtain ⟨rfl, rfl, chains⟩ := SymbolName.globalName.inj same
  obtain ⟨rfl, last⟩ := List.append_inj' chains rfl
  exact ⟨rfl, numbered_inj rfl (Descriptor.mk.inj (List.cons.inj last).1).1⟩

/-- The global names that were given are closed texts; those of declarations are placed, with
numbers that are counted already, and no two declarations of one name with the same number. -/
structure Orderly (tree : NodeId → Node) (n : Namer) : Prop where
  closed : ∀ id name, n.memo.get? id = some (some name) → name.isLocal = false →
    Closed name.render
  placed : ∀ id name, n.memo.get? id = some (some name) → name.isLocal = false →
    (suffix? (tree id).kind).isSome → ∃ text seen, Placed tree id name text seen ∧
      Closed text ∧ seen < n.count text (tree id).name
  apart : ∀ id id' name name' text seen, n.memo.get? id = some (some name) →
    n.memo.get? id' = some (some name') → Placed tree id name text seen →
    Placed tree id' name' text seen → (tree id).name = (tree id').name → id = id'

theorem orderly_start (scheme : String) (locate : Locator) :
    (start scheme locate).Orderly tree :=
  ⟨by simp [start], by simp [start], by simp [start]⟩

theorem Orderly.newLocal {n : Namer} (h : n.Orderly tree) : n.newLocal.2.Orderly tree :=
  ⟨h.closed, h.placed, h.apart⟩

/-- A fresh local name is not global. -/
theorem not_global_newLocal (n : Namer) {name : SymbolName} (h : some n.newLocal.1 = some name) :
    name.isLocal ≠ false := by
  rw [← Option.some.inj h]
  simp [newLocal, SymbolName.isLocal]

theorem get?_remember (n : Namer) (id other : NodeId) (r : Resolved) :
    (n.remember id r).memo.get? other = if id = other then some r else n.memo.get? other :=
  Table.get?_insert ..

/-- A node that is no declaration, or has no global name, may be remembered. -/
theorem Orderly.remember {n : Namer} (h : n.Orderly tree) {id : NodeId} {r : Resolved}
    (fine : ∀ name, r = some name → name.isLocal = false →
      Closed name.render ∧ suffix? (tree id).kind = none) :
    (n.remember id r).Orderly tree := by
  have old : ∀ {other name text seen}, (n.remember id r).memo.get? other = some (some name) →
      Placed tree other name text seen → n.memo.get? other = some (some name) := by
    intro other name text seen here placed
    rw [get?_remember] at here
    split at here
    · rename_i own
      obtain ⟨_, _, _, suffix, kind, -, rfl⟩ := placed
      obtain ⟨-, none⟩ := fine _ (Option.some.inj here) rfl
      rw [own, kind] at none
      exact absurd none (by simp)
    · exact here
  refine ⟨fun other name here global => ?_, fun other name here global kind => ?_,
    fun a b name name' text seen here here' placed placed' =>
      h.apart a b name name' text seen (old here placed) (old here' placed') placed placed'⟩
  · rw [get?_remember] at here
    split at here
    · exact (fine name (Option.some.inj here) global).1
    · exact h.closed other name here global
  · rw [get?_remember] at here
    split at here
    · rename_i own
      rw [← own, (fine name (Option.some.inj here) global).2] at kind
      simp at kind
    · exact h.placed other name here global kind

/-- The namer after it counted one more declaration. -/
def counted (n : Namer) (text name : String) : Namer :=
  { n with counters := n.counters.insert (text, name) (n.count text name + 1) }

theorem count_counted (n : Namer) (text name text' name' : String) :
    (n.counted text name).count text' name' =
      if (text, name) = (text', name') then n.count text name + 1 else n.count text' name' := by
  unfold counted count
  rw [Table.get?_insert]
  split <;> rfl

theorem count_le_counted (n : Namer) (text name text' name' : String) :
    n.count text' name' ≤ (n.counted text name).count text' name' := by
  rw [count_counted]
  split
  · rename_i same
    obtain ⟨rfl, rfl⟩ := Prod.mk.inj same
    exact Nat.le_succ _
  · exact Nat.le_refl _

/-- The numbers that were given are counted. -/
theorem Orderly.seen_lt {n : Namer} (h : n.Orderly tree) {id : NodeId} {name : SymbolName}
    {text : String} {seen : Nat} (here : n.memo.get? id = some (some name))
    (placed : Placed tree id name text seen) : seen < n.count text (tree id).name := by
  have global : name.isLocal = false := by
    obtain ⟨_, _, _, _, -, -, rfl⟩ := placed
    rfl
  have declares : (suffix? (tree id).kind).isSome := by
    obtain ⟨_, _, _, _, kind, -⟩ := placed
    simp [kind]
  obtain ⟨text', seen', placed', -, below⟩ := h.placed id name here global declares
  obtain ⟨rfl, rfl⟩ := placed.unique placed'
  exact below

/-- A declaration gets the number that is next below its container, which is above all that were
given below this text. -/
theorem Orderly.issue {n : Namer} (h : n.Orderly tree) {id : NodeId} {scheme : String}
    {package : PackageInfo} {ds : List Descriptor} {suffix : Suffix}
    (kind : suffix? (tree id).kind = some suffix)
    (closed : Closed (SymbolName.globalName scheme package ds).render) :
    ((n.counted (SymbolName.globalName scheme package ds).render (tree id).name).remember id
      (some (.globalName scheme package (ds ++ [⟨numbered (tree id)
        (n.count (SymbolName.globalName scheme package ds).render (tree id).name),
        suffix⟩])))).Orderly tree := by
  generalize text_eq : (SymbolName.globalName scheme package ds).render = text at closed ⊢
  generalize name_eq : SymbolName.globalName scheme package (ds ++ [⟨numbered (tree id)
    (n.count text (tree id).name), suffix⟩]) = name
  have own : Placed tree id name text (n.count text (tree id).name) :=
    ⟨scheme, package, ds, suffix, kind, text_eq, name_eq.symm⟩
  have fresh : ∀ other name', n.memo.get? other = some (some name') →
      Placed tree other name' text (n.count text (tree id).name) →
      (tree other).name ≠ (tree id).name := by
    intro other name' here placed same
    have below := h.seen_lt here placed
    rw [same] at below
    exact Nat.lt_irrefl _ below
  refine ⟨fun other name' here global => ?_, fun other name' here global declares => ?_,
    fun a b first second text' seen here here' placed placed' same => ?_⟩
  · rw [get?_remember] at here
    split at here
    · obtain rfl := Option.some.inj (Option.some.inj here)
      rw [← name_eq, SymbolName.render_append]
      exact Descriptor.closed_append_render _ (marked_of_suffix? kind)
    · exact h.closed other name' here global
  · rw [get?_remember] at here
    split at here
    · rename_i here_
      obtain rfl := Option.some.inj (Option.some.inj here)
      refine ⟨text, _, here_ ▸ own, closed, ?_⟩
      show _ < (n.counted text (tree id).name).count text (tree other).name
      rw [count_counted, if_pos (by rw [here_]), here_]
      exact Nat.lt_succ_self _
    · obtain ⟨text', seen, placed, closed', below⟩ := h.placed other name' here global declares
      exact ⟨text', seen, placed, closed', Nat.lt_of_lt_of_le below (count_le_counted ..)⟩
  · rw [get?_remember] at here here'
    split at here <;> split at here'
    · rename_i first_ second_
      exact first_.symm.trans second_
    · rename_i first_ _
      subst first_
      obtain rfl := Option.some.inj (Option.some.inj here)
      obtain ⟨rfl, rfl⟩ := own.unique placed
      exact absurd same.symm (fresh b second here' placed')
    · rename_i second_
      subst second_
      obtain rfl := Option.some.inj (Option.some.inj here')
      obtain ⟨rfl, rfl⟩ := own.unique placed'
      exact absurd same (fresh a first here placed)
    · exact h.apart a b first second text' seen here here' placed placed' same

/-! ## Resolving keeps names in order -/

/-- From `n` to `n'` names stay in order and names that were given stay; `r` is what was
resolved. -/
structure Advance (tree : NodeId → Node) (n : Namer) (r : Resolved) (n' : Namer) : Prop where
  orderly : n'.Orderly tree
  kept : ∀ id name, n.memo.get? id = some (some name) → n'.memo.get? id = some (some name)
  closed : ∀ name, r = some name → name.isLocal = false → Closed name.render

/-- Remembering keeps the names of all other nodes. -/
theorem kept_remember {n n' : Namer} {id : NodeId} {r : Resolved}
    (kept : ∀ other name, n.memo.get? other = some (some name) →
      n'.memo.get? other = some (some name))
    (unnamed : ∀ name, n.memo.get? id ≠ some (some name)) (other : NodeId) (name : SymbolName)
    (here : n.memo.get? other = some (some name)) :
    (n'.remember id r).memo.get? other = some (some name) := by
  rw [get?_remember, if_neg]
  · exact kept other name here
  · rintro rfl
    exact unnamed name here

theorem below_global (n : Namer) (scheme : String) (package : PackageInfo)
    (ds : List Descriptor) (node : Node) (suffix : Suffix) :
    n.below (some (.globalName scheme package ds)) node suffix =
      let text := (SymbolName.globalName scheme package ds).render
      if node.name = "" then n.newLocal
      else (.globalName scheme package (ds ++ [⟨numbered node (n.count text node.name), suffix⟩]),
        n.counted text node.name) :=
  rfl

/-- A declaration is named below its container and remembered. -/
theorem advance_below {n n₁ : Namer} {container : Resolved} {id : NodeId} {suffix : Suffix}
    (first : Advance tree n container n₁) (unnamed : ∀ name, n.memo.get? id ≠ some (some name))
    (kind : suffix? (tree id).kind = some suffix) :
    Advance tree n (some (n₁.below container (tree id) suffix).1)
      ((n₁.below container (tree id) suffix).2.remember id
        (some (n₁.below container (tree id) suffix).1)) := by
  have locally : Advance tree n (some n₁.newLocal.1)
      (n₁.newLocal.2.remember id (some n₁.newLocal.1)) := by
    refine ⟨first.orderly.newLocal.remember ?_, kept_remember first.kept unnamed, ?_⟩
    · intro name same global
      exact absurd global (not_global_newLocal n₁ same)
    · intro name same global
      exact absurd global (not_global_newLocal n₁ same)
  cases container with
  | none => exact locally
  | some container =>
      cases container with
      | localName number => exact locally
      | globalName scheme package ds =>
          rw [below_global]
          split
          · exact locally
          · refine ⟨first.orderly.issue kind (first.closed _ rfl rfl),
              kept_remember first.kept unnamed, ?_⟩
            rintro name ⟨⟩ -
            rw [SymbolName.render_append]
            exact Descriptor.closed_append_render _ (marked_of_suffix? kind)

/-- A node that is no declaration is resolved to what its container is resolved to. -/
theorem Advance.remember {n n' : Namer} {r : Resolved} {id : NodeId} (h : Advance tree n r n')
    (unnamed : ∀ name, n.memo.get? id ≠ some (some name))
    (kind : suffix? (tree id).kind = none) : Advance tree n r (n'.remember id r) :=
  ⟨h.orderly.remember fun name same global => ⟨h.closed name same global, kind⟩,
    kept_remember h.kept unnamed, h.closed⟩

theorem advance_refl {n : Namer} (h : n.Orderly tree) {r : Resolved}
    (closed : ∀ name, r = some name → name.isLocal = false → Closed name.render) :
    Advance tree n r n :=
  ⟨h, fun _ _ here => here, closed⟩

variable {μ : Type} {o : Oracle μ}

/-- What is derived for a node that has no name yet, and remembered. -/
theorem advance_derive {resolve : Option NodeId → Namer → Climbing μ (Resolved × Namer)}
    (spec : ∀ {id n m r n' m'}, n.Orderly tree → resolve id n m = (.ok (r, n'), m') →
      Advance tree n r n')
    {n n' : Namer} (h : n.Orderly tree) {id : NodeId}
    (unnamed : ∀ name, n.memo.get? id ≠ some (some name)) {m m' : μ} {r : Resolved}
    (derived : n.derive o resolve id (tree id) m = (.ok (r, n'), m')) :
    Advance tree n r (n'.remember id r) := by
  rw [derive_eq] at derived
  cases kind : suffix? (tree id).kind with
  | some suffix =>
      simp only [kind] at derived
      split at derived
      · rename_i above
        cases derived
        exact advance_below (spec h above) unnamed kind
      · cases derived
  | none =>
      have nothing : Advance tree n none n := advance_refl h (by simp)
      rw [kind] at derived
      cases sort : (tree id).kind with
      | file =>
          simp only [sort] at derived
          cases derived
          refine (advance_refl h fun name located global => ?_).remember unnamed kind
          obtain ⟨location, -, rfl⟩ := Option.map_eq_some_iff.1 located
          exact SymbolName.render_append n.scheme location.package [] _ ▸
            Descriptor.closed_append_render _ (by simp)
      | package =>
          simp only [sort] at derived
          exact (spec h derived).remember unnamed kind
      | group =>
          simp only [sort] at derived
          exact (spec h derived).remember unnamed kind
      | block | signature =>
          simp only [sort] at derived
          cases derived
          exact nothing.remember unnamed kind
      | _ =>
          simp only [sort] at derived
          cases derived
          refine Advance.remember ⟨h.newLocal, fun _ _ here => here, ?_⟩ unnamed kind
          intro name same global
          exact absurd global (not_global_newLocal n same)

/-- **Resolving a node keeps the names in order.** -/
theorem advance_resolveWith (fixed : ∀ id m, o.node id m = tree id) (fuel : Nat)
    {id : Option NodeId} {n n' : Namer} {m m' : μ} {r : Resolved} (h : n.Orderly tree)
    (resolved : resolveWith o fuel id n m = (.ok (r, n'), m')) : Advance tree n r n' := by
  induction fuel generalizing id n m r n' m' with
  | zero =>
      cases id with
      | none =>
          cases resolved
          exact advance_refl h (by simp)
      | some id => cases resolved
  | succ fuel ih =>
      cases id with
      | none =>
          cases resolved
          exact advance_refl h (by simp)
      | some id =>
          rw [resolveWith_succ] at resolved
          cases known : n.memo.get? id with
          | some r =>
              rw [known] at resolved
              cases resolved
              refine advance_refl h fun name same global => ?_
              exact h.closed id name (known.trans (congrArg some same)) global
          | none =>
              rw [known, fixed] at resolved
              simp only at resolved
              split at resolved
              · rename_i derived
                cases resolved
                exact advance_derive ih h (by simp [known]) derived
              · cases resolved

theorem get?_resolveWith {fuel : Nat} {id : NodeId} {n n' : Namer} {m m' : μ} {r : Resolved}
    (resolved : resolveWith o (fuel + 1) (some id) n m = (.ok (r, n'), m')) :
    n'.memo.get? id = some r := by
  rw [resolveWith_succ] at resolved
  cases known : n.memo.get? id with
  | some r =>
      rw [known] at resolved
      cases resolved
      exact known
  | none =>
      rw [known] at resolved
      simp only at resolved
      split at resolved
      · cases resolved
        exact Table.get?_insert_self ..
      · cases resolved

/-- A node that was resolved before is resolved at once. -/
theorem new_of_endless {fuel : Nat} {id : NodeId} {n : Namer} {m m' : μ} {e : Endless}
    (endless : resolveWith o (fuel + 1) (some id) n m = (.error e, m')) :
    n.memo.get? id = none := by
  rw [resolveWith_succ] at endless
  cases known : n.memo.get? id with
  | some r =>
      rw [known] at endless
      cases endless
  | none => rfl

/-- A node that has no name keeps a local one. -/
theorem advance_localFor {n n' : Namer} {r : Resolved} {id : NodeId} (first : Advance tree n r n')
    (unnamed : ∀ name, n.memo.get? id ≠ some (some name)) :
    Advance tree n (some (n'.localFor (some id)).1) (n'.localFor (some id)).2 := by
  refine ⟨first.orderly.newLocal.remember ?_, kept_remember first.kept unnamed, ?_⟩
  · intro name same global
    exact absurd global (not_global_newLocal n' same)
  · intro name same global
    exact absurd global (not_global_newLocal n' same)

/-- A call keeps the names in order, and its answer is remembered. -/
theorem advance_nameOf (fixed : ∀ id m, o.node id m = tree id) (id : Option NodeId) (n : Namer)
    (m : μ) (h : n.Orderly tree) :
    Advance tree n (some (n.nameOf o id m).1.1) (n.nameOf o id m).1.2 ∧
      ∀ own, id = some own →
        (n.nameOf o id m).1.2.memo.get? own = some (some (n.nameOf o id m).1.1) := by
  cases id with
  | none =>
      have answer : n.nameOf o none m = (n.newLocal, m) := rfl
      rw [answer]
      refine ⟨⟨h.newLocal, fun _ _ here => here, ?_⟩, by simp⟩
      intro name same global
      exact absurd global (not_global_newLocal n same)
  | some id =>
      rw [nameOf_eq]
      rcases resolved : resolveWith o (o.size + 1) (some id) n m with
        ⟨e | ⟨_ | name, n₁⟩, m₁⟩
      · have new := new_of_endless resolved
        refine ⟨advance_localFor (advance_refl h (r := none) (by simp)) (by simp [new]), ?_⟩
        rintro _ ⟨⟩
        exact Table.get?_insert_self ..
      · have first := advance_resolveWith fixed _ h resolved
        have unnamed : ∀ name, n.memo.get? id ≠ some (some name) := by
          intro name named
          have kept : n₁.memo.get? id = some (some name) := first.kept id name named
          exact absurd ((get?_resolveWith resolved).symm.trans kept) (by simp)
        refine ⟨advance_localFor first unnamed, ?_⟩
        rintro _ ⟨⟩
        exact Table.get?_insert_self ..
      · refine ⟨advance_resolveWith fixed _ h resolved, ?_⟩
        rintro _ ⟨⟩
        exact get?_resolveWith resolved

/-! ## Calls one after the other -/

/-- The names of nodes, one after the other; no node is a fresh local name. -/
def nameAll (o : Oracle μ) : List (Option NodeId) → Namer → StateM μ (List SymbolName × Namer)
  | [], n => pure ([], n)
  | id :: rest, n => do
      let (name, n) ← n.nameOf o id
      let (names, n) ← nameAll o rest n
      return (name :: names, n)

theorem nameAll_cons (o : Oracle μ) (id : Option NodeId) (rest : List (Option NodeId))
    (n : Namer) (m : μ) :
    nameAll o (id :: rest) n m =
      let ((name, n), m) := n.nameOf o id m
      let ((names, n), m) := nameAll o rest n m
      ((name :: names, n), m) :=
  rfl

/-- **Calls in any order keep the names in order**, and every answer stays remembered. -/
theorem orderly_nameAll (fixed : ∀ id m, o.node id m = tree id) (calls : List (Option NodeId))
    (n : Namer) (m : μ) (h : n.Orderly tree) :
    (nameAll o calls n m).1.2.Orderly tree ∧
    (∀ id name, n.memo.get? id = some (some name) →
      (nameAll o calls n m).1.2.memo.get? id = some (some name)) ∧
    ∀ id name, (some id, name) ∈ calls.zip (nameAll o calls n m).1.1 →
      (nameAll o calls n m).1.2.memo.get? id = some (some name) := by
  induction calls generalizing n m with
  | nil => exact ⟨h, fun _ _ here => here, by simp [nameAll]⟩
  | cons call rest ih =>
      obtain ⟨first, answered⟩ := advance_nameOf fixed call n m h
      rw [nameAll_cons]
      generalize n.nameOf o call m = result at first answered ⊢
      obtain ⟨⟨name, n₁⟩, m₁⟩ := result
      obtain ⟨orderly, kept, others⟩ := ih n₁ m₁ first.orderly
      refine ⟨orderly, fun id name here => kept id name (first.kept id name here), ?_⟩
      intro id name' member
      rcases List.mem_cons.1 member with same | later
      · obtain ⟨rfl, rfl⟩ := Prod.mk.inj same
        exact kept id _ (answered id rfl)
      · exact others id name' later

/-- **When two declarations get one text.**  Take any calls to one namer, and two different
declarations among them that got global names.  The names have the same text exactly if the
declarations have different names, lie below one text, have one mark, and are alike once they
are numbered. -/
theorem render_eq_iff (fixed : ∀ id m, o.node id m = tree id) (scheme : String)
    (locate : Locator) (calls : List (Option NodeId)) (m : μ) {id id' : NodeId}
    {name name' : SymbolName}
    (named : (some id, name) ∈ calls.zip (nameAll o calls (start scheme locate) m).1.1)
    (named' : (some id', name') ∈ calls.zip (nameAll o calls (start scheme locate) m).1.1)
    (different : id ≠ id') (declares : (suffix? (tree id).kind).isSome)
    (declares' : (suffix? (tree id').kind).isSome) (global : name.isLocal = false)
    (global' : name'.isLocal = false) :
    name.render = name'.render ↔ ∃ text seen seen', Placed tree id name text seen ∧
      Placed tree id' name' text seen' ∧ suffix? (tree id).kind = suffix? (tree id').kind ∧
      (tree id).name ≠ (tree id').name ∧ numbered (tree id) seen = numbered (tree id') seen' := by
  obtain ⟨orderly, -, answers⟩ :=
    orderly_nameAll fixed calls (start scheme locate) m (orderly_start scheme locate)
  have here := answers id name named
  have here' := answers id' name' named'
  obtain ⟨text, seen, placed, closed, -⟩ := orderly.placed id name here global declares
  obtain ⟨text', seen', placed', closed', -⟩ := orderly.placed id' name' here' global' declares'
  have shape := placed
  have shape' := placed'
  obtain ⟨_, _, _, suffix, kind, text_eq, rfl⟩ := shape
  obtain ⟨_, _, _, suffix', kind', text_eq', rfl⟩ := shape'
  rw [SymbolName.render_append, SymbolName.render_append, text_eq, text_eq']
  constructor
  · intro same
    obtain ⟨rfl, last⟩ := Descriptor.append_render_inj closed closed' (marked_of_suffix? kind)
      (marked_of_suffix? kind') same
    obtain ⟨alike, rfl⟩ := Descriptor.mk.inj last
    refine ⟨text, seen, seen', placed, placed', kind.trans kind'.symm, fun equal => ?_, alike⟩
    obtain rfl := numbered_inj equal alike
    exact different (orderly.apart id id' _ _ text seen here here' placed placed' equal)
  · rintro ⟨text₁, seen₁, seen₁', first, second, marks, -, alike⟩
    obtain ⟨rfl, rfl⟩ := placed.unique first
    obtain ⟨rfl, rfl⟩ := placed'.unique second
    obtain rfl := Option.some.inj (kind.symm.trans (marks.trans kind'))
    rw [alike]

/-! ### A number that is a name -/

/-- A file with a function `init`, which may be repeated, and a function `init0`. -/
def initPair : Sketch :=
  let (file, s) := Sketch.addFile {} "a.go"
  let (first, s) := s.declare file .function "init"
  let s := s.modifyNode first fun n => { n with node := { n.node with redeclarable := true } }
  let (_, s) := s.declare file .function "init0"
  s

/-- The text that both functions get. -/
def initName : SymbolName := .globalName "gomod" {} [⟨"p", .package⟩, ⟨"init0", .method⟩]

theorem nameAll_initPair :
    (nameAll initPair.oracle [some ⟨1⟩, some ⟨3⟩] (start "" fun _ => some { path := "p" })
      []).1.1 = [initName, initName] := by
  decide +kernel

/-- Two functions of one package that get the same text. -/
theorem render_collision :
    ∃ name name', (nameAll initPair.oracle [some ⟨1⟩, some ⟨3⟩]
        (start "" fun _ => some { path := "p" }) []).1.1 = [name, name'] ∧
      (initPair.node ⟨1⟩).kind = .function ∧ (initPair.node ⟨3⟩).kind = .function ∧
      name.isLocal = false ∧ name'.isLocal = false ∧ name.render = name'.render :=
  ⟨initName, initName, nameAll_initPair, by decide, by decide, rfl, rfl, rfl⟩

theorem render_eq_iff_initPair :
    ∃ text seen seen', Placed initPair.node ⟨1⟩ initName text seen ∧
      Placed initPair.node ⟨3⟩ initName text seen' ∧
      suffix? (initPair.node ⟨1⟩).kind = suffix? (initPair.node ⟨3⟩).kind ∧
      (initPair.node ⟨1⟩).name ≠ (initPair.node ⟨3⟩).name ∧
      numbered (initPair.node ⟨1⟩) seen = numbered (initPair.node ⟨3⟩) seen' := by
  have fixed : ∀ id m, initPair.oracle.node id m = initPair.node id := fun _ _ => rfl
  refine (render_eq_iff fixed "" (fun _ => some { path := "p" }) [some ⟨1⟩, some ⟨3⟩] [] ?_ ?_
    (by decide) (by decide) (by decide) rfl rfl).1 rfl
  · rw [nameAll_initPair]
    simp
  · rw [nameAll_initPair]
    simp

end Namer
end SymbolAtlas
