/-
# SymbolAtlas.Proofs.Session.Ledger -- ranges and where they are written down

A `Ledger` is what matters for the occurrences of a session: the stream and the nodes
of the symbols.  A step of the session is a few changes of the ledger (`Step.changes`),
and there are six of them: elements that concern no occurrence, a node that is touched
without its occurrences, a new node, an occurrence that is recorded, a reference that is
forwarded, and a symbol that is frozen.

`Ledger.Accounted` is the invariant: every range is counted once by the node of its
result set, whatever else a node lists was forwarded to it, and the item edges in the
stream are those of the frozen nodes.
-/
import Mathlib.Data.List.Nodup
import SymbolAtlas.Proofs.Session.Stream

set_option autoImplicit false

namespace SymbolAtlas

open SymbolAtlas.Graph (Id Element)

namespace Graph

/-- An element that is neither a result set, nor a range, nor an item edge. -/
def Body.Silent : Body → Prop
  | .resultSet _ | .range _ | .item _ => False
  | _ => True

theorem idsOf_of_silent {extra : List Element} (silent : ∀ e ∈ extra, e.body.Silent) :
    idsOf .resultSet extra = [] := by
  refine idsOf_eq_nil fun e member => ?_
  have := silent e member
  cases body : e.body <;> simp_all [Body.vertex?, Body.Silent]

theorem itemsFrom_of_silent {extra : List Element} (silent : ∀ e ∈ extra, e.body.Silent)
    (resultSet : Id) : itemsFrom resultSet extra = [] := by
  simp only [itemsFrom, List.filterMap_eq_nil_iff]
  intro e member
  have := silent e member
  cases body : e.body <;> simp_all [Body.Silent]

end Graph

namespace Session

/-- All occurrences in one document. -/
def Occurrences.ids (o : Occurrences) : List Id := o.definitions.toList ++ o.references.toList

/-- All occurrences that a node has written down. -/
def SymbolNode.ids (n : SymbolNode) : List Id := n.occurrences.values.flatMap Occurrences.ids

/-- A node has written down a reference. -/
def SymbolNode.Cites (n : SymbolNode) (id : Id) : Prop :=
  ∃ path o, n.occurrences.get? path = some o ∧ id ∈ o.references

/-! ## Changes of one node -/

/-- A node that differs in nothing that concerns its occurrences. -/
structure SymbolNode.Retouched (key : String) (n n' : SymbolNode) : Prop where
  resultSet : n'.resultSet = n.resultSet
  occurrences : n'.occurrences = n.occurrences
  ended : n'.ended = n.ended
  bases : ∃ more, n'.bases = n.bases ++ more ∧ key ∉ more
  members : n.members ⊆ n'.members

/-- A node that has written down one more occurrence. -/
structure SymbolNode.Adds (role : Graph.Role) (id : Id) (n n' : SymbolNode) : Prop where
  resultSet : n'.resultSet = n.resultSet
  bases : n'.bases = n.bases
  members : n'.members = n.members
  ended : n'.ended = n.ended
  counts : ∀ x, n'.ids.count x = n.ids.count x + if x = id then 1 else 0
  old : ∀ x, n.Cites x → n'.Cites x
  new : role = .reference → n'.Cites id

theorem SymbolNode.count_addOccurrence (n : SymbolNode) (path : String) (document : Id)
    {f : Occurrences → Occurrences} {x : Id} {k : Nat}
    (adds : ∀ o, (f o).ids.count x = o.ids.count x + k) :
    (n.addOccurrence path document f).ids.count x = n.ids.count x + k := by
  unfold SymbolNode.ids SymbolNode.addOccurrence Table.values
  cases present : n.occurrences.get? path with
  | none =>
      have blank : Occurrences.ids { document } = [] := rfl
      rw [Table.entries_insert_of_absent present]
      simp [adds, blank]
  | some o =>
      obtain ⟨before, after, split, written⟩ :=
        Table.entries_insert_of_present present (f o)
      simp only [Option.getD_some]
      rw [written, split]
      simp only [List.map_append, List.map_cons, List.flatMap_append, List.flatMap_cons,
        List.count_append, adds]
      omega

theorem SymbolNode.Cites.addOccurrence {n : SymbolNode} {x : Id} (h : n.Cites x) (path : String)
    (document : Id) {f : Occurrences → Occurrences}
    (kept : ∀ o, x ∈ o.references → x ∈ (f o).references) :
    (n.addOccurrence path document f).Cites x := by
  obtain ⟨path', o, here, member⟩ := h
  by_cases own : path = path'
  · subst own
    exact ⟨path, f o, by simp [SymbolNode.addOccurrence, here], kept o member⟩
  · exact ⟨path', o, by simp [SymbolNode.addOccurrence, Table.get?_insert, own, here], member⟩

theorem adds_definition (n : SymbolNode) (path : String) (document id : Id) (site : Site) :
    n.Adds .definition id
      { n.addOccurrence path document (fun o => { o with definitions := o.definitions.push id })
        with recorded := site :: n.recorded } := by
  refine ⟨rfl, rfl, rfl, rfl, fun x => ?_, fun x cites => ?_, by simp⟩
  · refine n.count_addOccurrence path document
      (f := fun o => { o with definitions := o.definitions.push id }) fun o => ?_
    by_cases same : id = x
    · simp [Occurrences.ids, same]
      omega
    · simp [Occurrences.ids, same, Ne.symm same]
  · exact cites.addOccurrence path document
      (f := fun o => { o with definitions := o.definitions.push id }) fun o member => member

theorem adds_reference (n : SymbolNode) (path : String) (document id : Id) :
    n.Adds .reference id (n.addReferenceId path document id) := by
  refine ⟨rfl, rfl, rfl, rfl, fun x => ?_, fun x cites => ?_, fun _ => ?_⟩
  · refine n.count_addOccurrence path document fun o => ?_
    by_cases same : id = x
    · simp [Occurrences.ids, same]
      omega
    · simp [Occurrences.ids, same, Ne.symm same]
  · exact cites.addOccurrence path document fun o member => Array.mem_push_of_mem _ member
  · exact ⟨path, _, Table.get?_insert_self .., by simp⟩

/-! ## The ledger and its changes -/

/-- The stream and the nodes of the symbols. -/
structure Ledger where
  stream : List Element
  symbols : Table String SymbolNode

/-- One change of a ledger. -/
inductive Change : Ledger → Ledger → Prop where
  | silent {l : Ledger} {extra : List Element} (silent : ∀ e ∈ extra, e.body.Silent) :
      Change l ⟨l.stream ++ extra, l.symbols⟩
  | retouched {l : Ledger} {key : String} {f : SymbolNode → SymbolNode}
      (kept : ∀ n, l.symbols.get? key = some n → n.Retouched key (f n)) :
      Change l ⟨l.stream, l.symbols.modify key f⟩
  | enrolled {l : Ledger} {key : String} {n : SymbolNode} {r : Graph.ResultSet}
      (fresh : l.symbols.get? key = none) (number : n.resultSet = (l.stream.length + 1 : Int))
      (blank : n.occurrences = .empty) (open_ : n.ended = false) (alone : n.bases = []) :
      Change l ⟨l.stream ++ [⟨n.resultSet, .resultSet r⟩], l.symbols.insert key n⟩
  | recorded {l : Ledger} {key : String} {n : SymbolNode} {f : SymbolNode → SymbolNode}
      {r : Graph.Range} {id : Id} (number : id = (l.stream.length + 1 : Int))
      (node : l.symbols.get? key = some n) (open_ : n.ended = false)
      (home : n.resultSet = r.resultSet) (adds : ∀ n, SymbolNode.Adds r.role id n (f n)) :
      Change l ⟨l.stream ++ [⟨id, .range r⟩], l.symbols.modify key f⟩
  | forwarded {l : Ledger} {key other : String} {n m : SymbolNode}
      {f : SymbolNode → SymbolNode} {r : Graph.Range} {id : Id}
      (range : ⟨id, .range r⟩ ∈ l.stream) (reference : r.role = .reference)
      (source : l.symbols.get? key = some n) (home : n.resultSet = r.resultSet)
      (linked : other ∈ n.bases ∨ other ∈ n.members) (apart : other ≠ key)
      (node : l.symbols.get? other = some m) (open_ : m.ended = false)
      (adds : ∀ n, SymbolNode.Adds .reference id n (f n)) :
      Change l ⟨l.stream, l.symbols.modify other f⟩
  | ended {l : Ledger} {key : String} {n : SymbolNode} {added : List Element}
      (node : l.symbols.get? key = some n) (open_ : n.ended = false)
      (items : added.map (·.body) = n.items.map .item) :
      Change l ⟨l.stream ++ added, l.symbols.modify key fun n => { n with ended := true }⟩

/-- Changes one after the other. -/
abbrev Changes : Ledger → Ledger → Prop := Relation.ReflTransGen Change

/-- What a node keeps through every change. -/
structure SymbolNode.Continues (n n' : SymbolNode) : Prop where
  resultSet : n'.resultSet = n.resultSet
  bases : n.bases ⊆ n'.bases
  members : n.members ⊆ n'.members
  cites : ∀ id, n.Cites id → n'.Cites id

theorem SymbolNode.Continues.refl (n : SymbolNode) : n.Continues n :=
  ⟨rfl, List.Subset.refl _, List.Subset.refl _, fun _ cites => cites⟩

theorem SymbolNode.Continues.trans {n n' n'' : SymbolNode} (first : n.Continues n')
    (second : n'.Continues n'') : n.Continues n'' :=
  ⟨second.resultSet.trans first.resultSet, List.Subset.trans first.bases second.bases,
    List.Subset.trans first.members second.members,
    fun id cites => second.cites id (first.cites id cites)⟩

theorem SymbolNode.Retouched.continues {key : String} {n n' : SymbolNode}
    (h : n.Retouched key n') : n.Continues n' := by
  obtain ⟨more, bases, -⟩ := h.bases
  refine ⟨h.resultSet, by simp [bases], h.members, fun id cites => ?_⟩
  unfold SymbolNode.Cites
  rw [h.occurrences]
  exact cites

theorem SymbolNode.Adds.continues {role : Graph.Role} {id : Id} {n n' : SymbolNode}
    (h : n.Adds role id n') : n.Continues n' :=
  ⟨h.resultSet, by simp [h.bases], by simp [h.members], h.old⟩

/-- No node and no element is lost. -/
theorem Change.continues {l l' : Ledger} (change : Change l l') :
    (∃ more, l'.stream = l.stream ++ more) ∧ ∀ key n, l.symbols.get? key = some n →
      ∃ n', l'.symbols.get? key = some n' ∧ n.Continues n' := by
  have one : ∀ {key f}, (∀ n, l.symbols.get? key = some n → n.Continues (f n)) →
      ∀ k n, l.symbols.get? k = some n →
        ∃ n', (l.symbols.modify key f).get? k = some n' ∧ n.Continues n' :=
    fun changed k n here => Table.get?_modify_rel SymbolNode.Continues.refl changed here
  cases change with
  | silent => exact ⟨⟨_, rfl⟩, fun key n node => ⟨n, node, .refl n⟩⟩
  | retouched kept => exact ⟨⟨[], by simp⟩, one fun n node => (kept n node).continues⟩
  | @enrolled key m r fresh number blank open_ alone =>
      refine ⟨⟨_, rfl⟩, fun key' n node => ⟨n, ?_, .refl n⟩⟩
      have different : key ≠ key' := by
        rintro rfl
        simp [fresh] at node
      simp [Table.get?_insert, different, node]
  | recorded number node open_ home adds => exact ⟨⟨_, rfl⟩, one fun n _ => (adds n).continues⟩
  | forwarded range reference source home linked apart node open_ adds =>
      exact ⟨⟨[], by simp⟩, one fun n _ => (adds n).continues⟩
  | ended node open_ items =>
      exact ⟨⟨_, rfl⟩, one fun n _ => ⟨rfl, List.Subset.refl _, List.Subset.refl _,
        fun _ cites => cites⟩⟩

/-! ## Every occurrence is accounted for -/

/-- An occurrence that the node of `key` has written down is its own, or a reference of a
symbol that `key` is a base or a member of. -/
def Ledger.Origin (l : Ledger) (key : String) (resultSet id : Id) : Prop :=
  ∃ r, (⟨id, .range r⟩ : Element) ∈ l.stream ∧ (r.resultSet = resultSet ∨
    r.role = .reference ∧ ∃ source n, l.symbols.get? source = some n ∧
      n.resultSet = r.resultSet ∧ (key ∈ n.bases ∨ key ∈ n.members))

/-- Every range is in the place where it belongs. -/
structure Ledger.Accounted (l : Ledger) : Prop where
  /-- There is one result set for each node. -/
  listed : Graph.idsOf .resultSet l.stream = l.symbols.values.map (·.resultSet)
  /-- No symbol is its own base. -/
  apart : l.symbols.All fun key n => key ∉ n.bases
  origin : l.symbols.All fun key n => ∀ id ∈ n.ids, l.Origin key n.resultSet id
  /-- A range is counted once by the node of its result set. -/
  owned : ∀ id r, (⟨id, .range r⟩ : Element) ∈ l.stream →
    ∃ key n, l.symbols.get? key = some n ∧ n.resultSet = r.resultSet ∧ n.ids.count id = 1
  /-- The item edges are those of the frozen nodes. -/
  items : l.symbols.All fun _ n =>
    Graph.itemsFrom n.resultSet l.stream = if n.ended then n.items else []

theorem Ledger.Origin.change {l l' : Ledger} {key : String} {resultSet id : Id}
    (h : l.Origin key resultSet id) (change : Change l l') : l'.Origin key resultSet id := by
  obtain ⟨⟨more, stream⟩, nodes⟩ := change.continues
  obtain ⟨r, member, own | ⟨role, source, n, node, home, linked⟩⟩ := h
  · exact ⟨r, stream ▸ List.mem_append_left more member, .inl own⟩
  · obtain ⟨n', node', continues⟩ := nodes source n node
    exact ⟨r, stream ▸ List.mem_append_left more member, .inr ⟨role, source, n', node',
      continues.resultSet.trans home,
      linked.imp (fun h => continues.bases h) (fun h => continues.members h)⟩⟩

/-- Result sets tell nodes apart. -/
theorem Ledger.Accounted.key_unique {l : Ledger} (h : l.Accounted)
    (ordered : Graph.Ordered l.stream) {key key' : String} {n n' : SymbolNode}
    (node : l.symbols.get? key = some n) (node' : l.symbols.get? key' = some n')
    (same : n.resultSet = n'.resultSet) : key = key' := by
  have distinct : (l.symbols.entries.map fun entry => entry.2.resultSet).Nodup := by
    have nodup := ordered.nodup_idsOf .resultSet
    rw [h.listed] at nodup
    rwa [Table.values, List.map_map] at nodup
  exact congrArg Prod.fst (List.inj_on_of_nodup_map distinct (Table.mem_entries_iff.2 node)
    (Table.mem_entries_iff.2 node') same)

theorem Change.listed {l l' : Ledger} (change : Change l l')
    (h : Graph.idsOf .resultSet l.stream = l.symbols.values.map (·.resultSet)) :
    Graph.idsOf .resultSet l'.stream = l'.symbols.values.map (·.resultSet) := by
  have one : ∀ {key f}, (∀ n, l.symbols.get? key = some n → (f n).resultSet = n.resultSet) →
      (l.symbols.modify key f).values.map (·.resultSet) = l.symbols.values.map (·.resultSet) :=
    fun same => Table.map_values_modify _ _ _ _ same
  cases change with
  | silent silent => rw [Graph.idsOf_append, Graph.idsOf_of_silent silent, List.append_nil, h]
  | retouched kept => rw [one fun n node => (kept n node).resultSet, h]
  | enrolled fresh number blank open_ alone =>
      rw [Table.values_insert_of_absent fresh, List.map_append, Graph.idsOf_append, h]
      rfl
  | recorded number node open_ home adds =>
      rw [one fun n _ => (adds n).resultSet, Graph.idsOf_append, h]
      exact List.append_nil _
  | forwarded range reference source home linked apart node open_ adds =>
      rw [one fun n _ => (adds n).resultSet, h]
  | @ended key n added node open_ items =>
      have none : Graph.idsOf .resultSet added = [] := by
        refine Graph.idsOf_eq_nil fun e member => ?_
        have item : e.body ∈ n.items.map .item := items ▸ List.mem_map_of_mem member
        obtain ⟨i, -, body⟩ := List.mem_map.1 item
        simp [← body, Graph.Body.vertex?]
      rw [one (f := fun n => { n with ended := true }) fun n _ => rfl, Graph.idsOf_append, none,
        List.append_nil, h]

theorem Change.apart {l l' : Ledger} (change : Change l l')
    (h : l.symbols.All fun key n => key ∉ n.bases) :
    l'.symbols.All fun key n => key ∉ n.bases := by
  cases change with
  | silent => exact h
  | retouched kept =>
      refine h.modify fun n node before => ?_
      obtain ⟨more, bases, new⟩ := (kept n node).bases
      simp [bases, before, new]
  | enrolled fresh number blank open_ alone => exact h.insert (by simp [alone])
  | recorded number node open_ home adds =>
      exact h.modify fun n _ before => (adds n).bases ▸ before
  | forwarded range reference source home linked apart node open_ adds =>
      exact h.modify fun n _ before => (adds n).bases ▸ before
  | ended node open_ items => exact h.modify fun n _ before => before

theorem SymbolNode.Retouched.ids {key : String} {n n' : SymbolNode} (h : n.Retouched key n') :
    n'.ids = n.ids := by
  rw [SymbolNode.ids, h.occurrences, SymbolNode.ids]

theorem SymbolNode.Retouched.items {key : String} {n n' : SymbolNode} (h : n.Retouched key n') :
    n'.items = n.items := by
  rw [SymbolNode.items, h.occurrences, h.resultSet, SymbolNode.items]

theorem SymbolNode.Adds.mem_ids {role : Graph.Role} {id x : Id} {n n' : SymbolNode}
    (h : n.Adds role id n') (member : x ∈ n'.ids) : x ∈ n.ids ∨ x = id := by
  have counted := List.count_pos_iff.2 member
  rw [h.counts] at counted
  by_cases same : x = id
  · exact .inr same
  · exact .inl (List.count_pos_iff.1 (by simpa [same] using counted))

theorem Change.origin {l l' : Ledger} (change : Change l l')
    (h : l.symbols.All fun key n => ∀ id ∈ n.ids, l.Origin key n.resultSet id) :
    l'.symbols.All fun key n => ∀ id ∈ n.ids, l'.Origin key n.resultSet id := by
  have lifted : l.symbols.All fun key n => ∀ id ∈ n.ids, l'.Origin key n.resultSet id :=
    h.imp fun key n _ origin id member => (origin id member).change change
  have nodes := change.continues.2
  cases change with
  | silent => exact lifted
  | retouched kept =>
      refine lifted.modify fun n node before => ?_
      rw [(kept n node).ids, (kept n node).resultSet]
      exact before
  | enrolled fresh number blank open_ alone =>
      exact lifted.insert (by simp [SymbolNode.ids, blank, Table.values, Table.empty])
  | @recorded key n f r id number node open_ home adds =>
      refine lifted.modify fun m here before x member => ?_
      rw [(adds m).resultSet]
      rcases (adds m).mem_ids member with old | rfl
      · exact before x old
      · obtain rfl := Option.some.inj (node.symm.trans here)
        exact ⟨r, by simp, .inl home.symm⟩
  | @forwarded key other n m f r id range reference source home linked apart node open_ adds =>
      refine lifted.modify fun m' here before x member => ?_
      rw [(adds m').resultSet]
      rcases (adds m').mem_ids member with old | rfl
      · exact before x old
      · obtain ⟨n', source', continues⟩ := nodes key n source
        exact ⟨r, range, .inr ⟨reference, key, n', source', continues.resultSet.trans home,
          linked.imp (fun h => continues.bases h) (fun h => continues.members h)⟩⟩
  | ended node open_ items => exact lifted.modify fun n _ before => before

/-- A number that is not given yet is nowhere written down. -/
theorem Ledger.Accounted.not_mem_ids {l : Ledger} (h : l.Accounted)
    (ordered : Graph.Ordered l.stream) {key : String} {n : SymbolNode}
    (node : l.symbols.get? key = some n) {id : Id} (beyond : (l.stream.length : Int) < id) :
    id ∉ n.ids := by
  intro member
  obtain ⟨r, inside, -⟩ := h.origin key n node id member
  exact absurd beyond (Int.not_lt.2 (ordered.id_le inside))

theorem Change.owned {l l' : Ledger} (change : Change l l') (h : l.Accounted)
    (ordered : Graph.Ordered l.stream) :
    ∀ id r, (⟨id, .range r⟩ : Element) ∈ l'.stream →
      ∃ key n, l'.symbols.get? key = some n ∧ n.resultSet = r.resultSet ∧
        n.ids.count id = 1 := by
  have before : ∀ {key₀ f} (id r), (⟨id, .range r⟩ : Element) ∈ l.stream →
      (∀ n, l.symbols.get? key₀ = some n → n.resultSet = r.resultSet →
        (f n).resultSet = n.resultSet ∧ (f n).ids.count id = n.ids.count id) →
      ∃ key n, (l.symbols.modify key₀ f).get? key = some n ∧ n.resultSet = r.resultSet ∧
        n.ids.count id = 1 := by
    intro key₀ f id r inside same
    obtain ⟨key, n, node, home, once⟩ := h.owned id r inside
    by_cases own : key₀ = key
    · subst own
      obtain ⟨resultSet, counts⟩ := same n node home
      exact ⟨key₀, f n, by simp [node], resultSet.trans home, counts.trans once⟩
    · exact ⟨key, n, by simp [Table.get?_modify, own, node], home, once⟩
  intro id r inside
  cases change with
  | silent silent =>
      rcases List.mem_append.1 inside with old | new
      · exact h.owned id r old
      · exact (silent _ new).elim
  | retouched kept =>
      exact before id r inside fun n node _ => ⟨(kept n node).resultSet, by rw [(kept n node).ids]⟩
  | @enrolled key m r' fresh number blank open_ alone =>
      rcases List.mem_append.1 inside with old | new
      · obtain ⟨key', n, node, rest⟩ := h.owned id r old
        have different : key ≠ key' := by
          rintro rfl
          simp [fresh] at node
        exact ⟨key', n, by simp [Table.get?_insert, different, node], rest⟩
      · simp at new
  | @recorded key n f r' id' number node open_ home adds =>
      rcases List.mem_append.1 inside with old | new
      · have different : id ≠ id' := by
          rintro rfl
          exact absurd (Int.lt_succ _) (Int.not_lt.2 (number ▸ ordered.id_le old))
        exact before id r old fun m _ _ =>
          ⟨(adds m).resultSet, by rw [(adds m).counts, if_neg different, Nat.add_zero]⟩
      · obtain ⟨rfl, rfl⟩ : id = id' ∧ r = r' := by simpa using new
        have unseen : n.ids.count id = 0 :=
          List.count_eq_zero.2 (h.not_mem_ids ordered node (by rw [number]; exact Int.lt_succ _))
        exact ⟨key, f n, by simp [node], (adds n).resultSet.trans home,
          by rw [(adds n).counts, unseen, if_pos rfl]⟩
  | @forwarded key other n m f r' id' range reference source home linked apart node open_ adds =>
      refine before id r inside fun m' here own => ⟨(adds m').resultSet, ?_⟩
      have different : id ≠ id' := by
        rintro rfl
        obtain rfl : r = r' := by simpa using ordered.unique inside range rfl
        exact apart (h.key_unique ordered here source (own.trans home.symm))
      rw [(adds m').counts, if_neg different, Nat.add_zero]
  | ended node open_ items =>
      rcases List.mem_append.1 inside with old | new
      · exact before id r old fun n _ _ => ⟨rfl, rfl⟩
      · have item : Graph.Body.range r ∈ _ := items ▸ List.mem_map_of_mem new
        simp at item

theorem Change.items {l l' : Ledger} (change : Change l l') (h : l.Accounted)
    (ordered : Graph.Ordered l.stream) :
    l'.symbols.All fun _ n =>
      Graph.itemsFrom n.resultSet l'.stream = if n.ended then n.items else [] := by
  cases change with
  | silent silent =>
      refine h.items.imp fun _ n _ items => ?_
      rw [Graph.itemsFrom_append, Graph.itemsFrom_of_silent silent, List.append_nil, items]
  | retouched kept =>
      refine h.items.modify fun n node items => ?_
      rw [(kept n node).resultSet, (kept n node).ended, (kept n node).items, items]
  | @enrolled key n r fresh number blank open_ alone =>
      have same : ∀ resultSet, Graph.itemsFrom resultSet
          (l.stream ++ [⟨n.resultSet, .resultSet r⟩]) = Graph.itemsFrom resultSet l.stream :=
        fun resultSet => by rw [Graph.itemsFrom_append]; exact List.append_nil _
      refine Table.All.insert (h.items.imp fun _ m _ items => by rw [same, items]) ?_
      have beyond : (l.stream.length : Int) < n.resultSet := by
        rw [number]
        exact Int.lt_succ _
      rw [same, ordered.itemsFrom_of_lt beyond, open_]
      rfl
  | @recorded key n f r id number node open_ home adds =>
      have same : ∀ resultSet, Graph.itemsFrom resultSet (l.stream ++ [⟨id, .range r⟩]) =
          Graph.itemsFrom resultSet l.stream :=
        fun resultSet => by rw [Graph.itemsFrom_append]; exact List.append_nil _
      refine Table.All.modify (h.items.imp fun _ m _ items => by rw [same, items]) ?_
      intro m here items
      obtain rfl := Option.some.inj (node.symm.trans here)
      rw [(adds n).resultSet, (adds n).ended, items, open_]
      rfl
  | @forwarded key other n m f r id range reference source home linked apart node open_ adds =>
      refine h.items.modify fun m' here items => ?_
      obtain rfl := Option.some.inj (node.symm.trans here)
      rw [(adds m).resultSet, (adds m).ended, items, open_]
      rfl
  | @ended key n added node open_ items =>
      intro key' m here
      rw [Graph.itemsFrom_append, Graph.itemsFrom_of_bodies items]
      rw [Table.get?_modify] at here
      split at here
      · rename_i own
        subst own
        rw [node] at here
        obtain rfl := Option.some.inj here
        have before : Graph.itemsFrom n.resultSet l.stream = [] := by
          simpa [open_] using h.items key n node
        rw [before, List.filter_eq_self.2 fun i member => by simpa using (n.mem_items member).1]
        rfl
      · rename_i other
        have none : n.items.filter (·.outV = m.resultSet) = [] := by
          refine List.filter_eq_nil_iff.2 fun i member same => other ?_
          have outV := (n.mem_items member).1
          exact h.key_unique ordered node here (outV.symm.trans (by simpa using same))
        rw [none, List.append_nil]
        exact h.items key' m here

/-- **Every change keeps every range accounted for.** -/
theorem Change.accounted {l l' : Ledger} (change : Change l l') (h : l.Accounted)
    (ordered : Graph.Ordered l.stream) : l'.Accounted :=
  ⟨change.listed h.listed, change.apart h.apart, change.origin h.origin, change.owned h ordered,
    change.items h ordered⟩

theorem Changes.accounted {l l' : Ledger} (changes : Changes l l') (h : l.Accounted)
    (ordered : Graph.Ordered l'.stream) : l'.Accounted := by
  induction changes with
  | refl => exact h
  | tail _ last ih =>
      obtain ⟨⟨more, stream⟩, -⟩ := last.continues
      have before := Graph.Ordered.of_append (stream ▸ ordered)
      exact last.accounted (ih before) before

theorem Changes.continues {l l' : Ledger} (changes : Changes l l') :
    (∃ more, l'.stream = l.stream ++ more) ∧ ∀ key n, l.symbols.get? key = some n →
      ∃ n', l'.symbols.get? key = some n' ∧ n.Continues n' := by
  induction changes with
  | refl => exact ⟨⟨[], by simp⟩, fun key n node => ⟨n, node, .refl n⟩⟩
  | tail _ last ih =>
      obtain ⟨⟨more, stream⟩, nodes⟩ := ih
      obtain ⟨⟨more', stream'⟩, nodes'⟩ := last.continues
      refine ⟨⟨more ++ more', by rw [stream', stream, List.append_assoc]⟩, fun key n node => ?_⟩
      obtain ⟨m, node₁, continues⟩ := nodes key n node
      obtain ⟨n', node', continues'⟩ := nodes' key m node₁
      exact ⟨n', node', continues.trans continues'⟩

/-! ## Steps change the ledger -/

section Steps

variable {μ ω : Type} {c : Context μ ω} {view : ω → List Element}

/-- The ledger of a session. -/
def State.ledger (view : ω → List Element) (s : State μ ω) : Ledger := ⟨view s.output, s.symbols⟩

theorem changes_began (records : c.sink.Records view) {s : State μ ω} {path : String}
    (ok : (s.began c path).failure = none) :
    Changes (s.ledger view) ((s.began c path).ledger view) := by
  have seen : view (s.began c path).output = _ := view_emitted records ok
  rw [State.ledger, State.ledger, seen]
  exact .single (.silent (by simp [Graph.Body.Silent]))

/-- A definition is recorded. -/
theorem changes_defined (records : c.sink.Records view) {s : State μ ω} {key path : String}
    {n : SymbolNode} {d : DocumentNode} {declaration name : Node} (traced : s.Traced view)
    (node : s.symbols.get? key = some n) (open_ : n.ended = false)
    (ok : (s.defined c key path n d declaration name).failure = none) :
    Changes (s.ledger view) ((s.defined c key path n d declaration name).ledger view) := by
  have seen : view (s.defined c key path n d declaration name).output = _ :=
    view_emitted records ok
  rw [State.ledger, State.ledger, seen]
  exact .single (.recorded (by rw [traced.count]) node open_ rfl fun n =>
    adds_definition n path d.id (s.lastId + 1) (Site.ofNode name))

theorem Detail.changes (records : c.sink.Records view) {s s' : State μ ω} (step : Detail c s s')
    (traced : s.Traced view) (ok : s'.failure = none) :
    Changes (s.ledger view) (s'.ledger view) := by
  cases step with
  | asked | counted | awaited | confined => exact .refl
  | began fresh outside => exact changes_began records ok
  | sited =>
      exact .single (.retouched fun n _ => ⟨rfl, rfl, rfl, ⟨[], by simp⟩, List.Subset.refl _⟩)
  | defined node open_ => exact changes_defined records traced node open_ ok
  | @attached key n m node open_ new =>
      have first : (s.emitted c (.moniker m)).failure = none := failure_none_of_emitted ok
      have seen : view (s.attached c key n m).output = _ := view_emitted records ok
      rw [view_emitted records first] at seen
      rw [State.ledger, State.ledger, seen, List.append_assoc]
      refine .tail (.single (.silent (by simp [Graph.Body.Silent]))) (.retouched fun n _ => ?_)
      exact ⟨rfl, rfl, rfl, ⟨[], by simp⟩, List.Subset.refl _⟩
  | @hovered key n contents node =>
      have first : (s.emitted c (.hover contents)).failure = none := failure_none_of_emitted ok
      have seen := view_emitted records ok
      rw [view_emitted records first] at seen
      rw [State.ledger, State.ledger, seen, List.append_assoc]
      exact .single (.silent (by simp [Graph.Body.Silent]))
  | joined node alias_ targetNode =>
      rw [State.ledger, State.ledger, view_emitted records ok]
      exact .single (.silent (by simp [Graph.Body.Silent]))

theorem Growth.changes (records : c.sink.Records view) {s s' : State μ ω} (step : Growth c s s')
    (traced : s.Traced view) (ok : s'.failure = none) :
    Changes (s.ledger view) (s'.ledger view) := by
  cases step with
  | @enrolled sym use variant declarations name namer _ _ memory fresh =>
      have seen : view (s.enrolled c sym variant declarations name namer memory).output = _ :=
        view_emitted records ok
      rw [State.ledger, State.ledger, seen]
      have number : (nodeOfSymbol sym variant declarations name (s.lastId + 1)).resultSet =
          ((view s.output).length + 1 : Int) := by
        rw [traced.count]
        rfl
      exact .single (.enrolled (l := ⟨view s.output, s.symbols⟩)
        (n := nodeOfSymbol sym variant declarations name (s.lastId + 1)) fresh number rfl rfl rfl)
  | @based key n m container base bases node method member other baseNode =>
      refine .single (.retouched fun n _ => ?_)
      exact ⟨rfl, rfl, rfl, ⟨[base.key], rfl, by simpa using Ne.symm other⟩, List.Subset.refl _⟩
  | @composed key n members node composite unset =>
      refine .single (.retouched fun m here => ?_)
      obtain rfl := Option.some.inj (node.symm.trans here)
      exact ⟨rfl, rfl, rfl, ⟨[], by simp⟩, by simp [unset]⟩

/-- A reference is forwarded to several symbols. -/
theorem changes_forwarded {s : State μ ω} {key path : String} {document id : Id}
    {r : Graph.Range} {n : SymbolNode} {keys : List String}
    (range : (⟨id, .range r⟩ : Element) ∈ view s.output) (reference : r.role = .reference)
    (source : s.symbols.get? key = some n) (home : n.resultSet = r.resultSet)
    (linked : ∀ other ∈ keys, (other ∈ n.bases ∨ other ∈ n.members) ∧ other ≠ key) :
    Changes (s.ledger view)
      ((keys.foldl (State.forwarded path document id) s).ledger view) := by
  induction keys generalizing s with
  | nil => exact .refl
  | cons other keys ih =>
      obtain ⟨here, apart⟩ := linked other (by simp)
      have rest : ∀ other ∈ keys, (other ∈ n.bases ∨ other ∈ n.members) ∧ other ≠ key :=
        fun other member => linked other (by simp [member])
      rw [List.foldl_cons]
      cases node : s.symbols.get? other with
      | none =>
          rw [show s.forwarded path document id other = s by simp [State.forwarded, node]]
          exact ih range source rest
      | some m =>
          cases open_ : m.ended with
          | true =>
              rw [show s.forwarded path document id other = s by
                simp [State.forwarded, node, open_]]
              exact ih range source rest
          | false =>
              have forwarded : Change (s.ledger view)
                  ((s.forwarded path document id other).ledger view) := by
                simp only [State.forwarded, node, open_, Bool.false_eq_true, if_false]
                exact .forwarded range reference source home here apart node open_ fun n =>
                  adds_reference n path document id
              refine .head forwarded (ih ?_ ?_ rest)
              · simpa [State.forwarded, node, open_] using range
              · simp [State.forwarded, node, open_, Table.get?_modify, apart, source]

theorem Usage.changes (records : c.sink.Records view) {s s' : State μ ω} (step : Usage c s s')
    (traced : s.Traced view) (apart : s.symbols.All fun key n => key ∉ n.bases)
    (ok : s'.failure = none) : Changes (s.ledger view) (s'.ledger view) := by
  cases step with
  | marked node open_ => exact changes_defined records traced node open_ ok
  | @referred key path n d name node open_ document writable =>
      obtain ⟨symbols, same⟩ := State.foldl_forwarded_eq path d.id (s.lastId + 1)
        (n.forwards key) (s.referred c key path n d name)
      have first : (s.referred c key path n d name).failure = none := by
        rw [same] at ok
        exact ok
      have seen : view (s.referred c key path n d name).output = _ := view_emitted records first
      have recorded : Change (s.ledger view) ((s.referred c key path n d name).ledger view) := by
        rw [State.ledger, State.ledger, seen]
        exact .recorded (by rw [traced.count]) node open_ rfl fun n =>
          adds_reference n path d.id (s.lastId + 1)
      obtain ⟨r, range, reference, home⟩ : ∃ r,
          (⟨s.lastId + 1, .range r⟩ : Element) ∈ view (s.referred c key path n d name).output ∧
            r.role = .reference ∧ n.resultSet = r.resultSet := by
        rw [seen]
        exact ⟨_, List.mem_append_right _ (List.mem_singleton.2 rfl), rfl, rfl⟩
      have source : (s.referred c key path n d name).symbols.get? key =
          some (n.addReferenceId path d.id (s.lastId + 1)) := by simp [State.referred, node]
      refine .head recorded (changes_forwarded range reference source home fun other member => ?_)
      rcases List.mem_append.1 member with base | other
      · exact ⟨.inl base, fun own => apart key n node (own ▸ base)⟩
      · obtain ⟨inside, different⟩ := List.mem_filter.1 other
        exact ⟨.inr inside, by simpa using different⟩

theorem Ending.changes (records : c.sink.Records view) {s s' : State μ ω} (step : Ending c s s')
    (ok : s'.failure = none) : Changes (s.ledger view) (s'.ledger view) := by
  cases step with
  | @symbol key n node open_ =>
      have taken : (s.emittedAll c (n.items.map .item)).failure = none := ok
      obtain ⟨added, seen, items⟩ := view_emittedAll records taken
      have seen : view (s.symbolEnded c key n).output = _ := seen
      rw [State.ledger, State.ledger, seen]
      exact .single (.ended node open_ items)
  | @document path d document writable frozen =>
      unfold State.documentEnded at ok ⊢
      split
      · exact .refl
      · rename_i some_
        rw [if_neg some_] at ok
        have taken : (s.emitted c (.contains d.id d.ranges.toList)).failure = none := ok
        have seen := view_emitted records taken
        rw [State.ledger, State.ledger]
        simp only [seen]
        exact .single (.silent (by simp [Graph.Body.Silent]))

/-- **A step changes the ledger.** -/
theorem Step.changes (records : c.sink.Records view) {s s' : State μ ω} (step : Step c s s')
    (traced : s.Traced view) (apart : s.symbols.All fun key n => key ∉ n.bases)
    (ok : s'.failure = none) : Changes (s.ledger view) (s'.ledger view) := by
  cases step with
  | detail step => exact step.changes records traced ok
  | growth step => exact step.changes records traced ok
  | usage step => exact step.changes records traced apart ok
  | ending step => exact step.changes records ok
  | opened fresh => exact changes_began records ok
  | turned | passed => exact .refl

theorem Steps.accounted (records : c.sink.Records view) {s s' : State μ ω}
    (steps : Steps c s s') (traced : s.Traced view) (h : (s.ledger view).Accounted)
    (ok : s'.failure = none) :
    (s'.ledger view).Accounted ∧ Changes (s.ledger view) (s'.ledger view) := by
  induction steps with
  | refl => exact ⟨h, .refl⟩
  | tail before last ih =>
      have ok' := last.failure_none ok
      obtain ⟨accounted, changes⟩ := ih ok'
      have traced' := Steps.traced records before traced ok'
      have more := last.changes records traced' accounted.apart ok
      exact ⟨more.accounted accounted (last.traced records traced' ok).wellFormed.ordered,
        changes.trans more⟩

theorem changes_concluded (records : c.sink.Records view) {s : State μ ω}
    (ok : (s.concluded c).failure = none) :
    Changes (s.ledger view) ((s.concluded c).ledger view) := by
  unfold State.concluded at ok ⊢
  split
  · exact .refl
  · rw [if_neg ‹_›] at ok
    rw [State.ledger, State.ledger, view_emitted records ok]
    exact .single (.silent (by simp [Graph.Body.Silent]))

theorem accounted_opened (records : c.sink.Records view) {memory : μ} {output : ω}
    (empty : view output = [])
    (ok : ((State.start c memory output).opened c).failure = none) :
    (((State.start c memory output).opened c).ledger view).Accounted := by
  have seen := view_opened records empty ok
  refine ⟨?_, Table.all_empty _, Table.all_empty _, fun id r inside => ?_, Table.all_empty _⟩
  · rw [State.ledger, seen]
    rfl
  · rw [State.ledger, seen] at inside
    simp at inside

end Steps

end Session
end SymbolAtlas
