import Mathlib.Data.List.Sort
import Mathlib.Data.List.Count
import Mathlib.Data.Rat.Lemmas
import Swamp.JsValue

/-!
# The topological sort service

Nodes are put in levels, each node after the nodes it depends on; a dependency on an
unknown node is ignored.  Within a level nodes go by weight, then by name, as
`localeCompare` orders names; what that order is does not matter here, so it is a
parameter.  Nodes of one name, or a cycle, are an error.
-/

namespace Swamp.Workflows

open Js

/-- The group of a node. -/
structure NodeGroup where
  key : JsString
  index : ℤ

/-- `GraphNode`. -/
structure GraphNode where
  name : JsString
  weight : ℚ
  dependencies : List JsString
  group : Option NodeGroup

/-- `CyclicDependencyError` and `DuplicateNodeNameError`. -/
inductive SortError where
  | cyclicDependency (cycle : List JsString)
  | duplicateNodeName (duplicates : List JsString)

mutual

/-- The search of `findCycle`.  The names it is visiting are those of its path. -/
def dfs (unprocessed : List GraphNode) (path : List JsString) (name : JsString) :
    Option (List JsString) :=
  if _hvisiting : path.contains name then some (path.drop (path.idxOf name) ++ [name])
  else
    match _hnode : unprocessed.find? (fun node => node.name = name) with
    | none => none
    | some node =>
      dfsEach unprocessed (path ++ [name])
        (node.dependencies.filter (fun dep => unprocessed.any (fun n => n.name = dep)))
termination_by ((unprocessed.filter (fun node => !path.contains node.name)).length, 0)
decreasing_by
  apply Prod.Lex.left
  have hmem := List.mem_of_find?_eq_some _hnode
  have hname : node.name = name := of_decide_eq_true
    (@List.find?_some _ (fun node : GraphNode => decide (node.name = name)) _ _ _hnode)
  have hsub : (unprocessed.filter (fun node => !(path ++ [name]).contains node.name)) =
      (unprocessed.filter (fun node => !path.contains node.name)).filter
        (fun node => !decide (node.name = name)) := by
    rw [List.filter_filter]
    congr 1
    funext n
    simp [Bool.and_comm]
  rw [hsub]
  refine List.length_filter_lt_length_iff_exists.mpr ⟨node, ?_, by simp [hname]⟩
  rw [List.mem_filter]
  exact ⟨hmem, by rw [hname]; simpa using _hvisiting⟩

/-- One dependency after another, until a cycle is found. -/
def dfsEach (unprocessed : List GraphNode) (path : List JsString) :
    List JsString → Option (List JsString)
  | [] => none
  | dep :: rest =>
    match dfs unprocessed path dep with
    | some cycle => some cycle
    | none => dfsEach unprocessed path rest
termination_by deps => ((unprocessed.filter (fun node => !path.contains node.name)).length,
  deps.length + 1)

end

/-- `findCycle`. -/
def findCycle (nodes : List GraphNode) (processed : List JsString) : List JsString :=
  let unprocessed := nodes.filter (fun node => !processed.contains node.name)
  (unprocessed.findSome? (fun node => dfs unprocessed [] node.name)).getD
    (unprocessed.map GraphNode.name)

/-- The names that occur again. -/
def duplicates : List JsString → List JsString
  | [] => []
  | name :: rest => if rest.contains name then name :: duplicates rest else duplicates rest

/-- One edge for each dependency on a known node, from the node that has it. -/
def edges (nodes : List GraphNode) : List (JsString × JsString) :=
  nodes.flatMap (fun node =>
    (node.dependencies.filter (fun dep => nodes.any (fun n => n.name = dep))).map
      (fun dep => (node.name, dep)))

/-- How many edges a node has, at first. -/
def inDegree (nodes : List GraphNode) (name : JsString) : ℤ :=
  ((edges nodes).map Prod.fst).count name

/-- The nodes that depend on a node, once for each edge. -/
def dependents (nodes : List GraphNode) (name : JsString) : List JsString :=
  ((edges nodes).filter (fun edge => edge.2 = name)).map Prod.fst

/-- The edges on a node that is processed are taken off its dependents. -/
def release (nodes : List GraphNode) (degree : JsString → ℤ) (node : GraphNode) : JsString → ℤ :=
  (dependents nodes node.name).foldl
    (fun degree dependent name => if name = dependent then degree name - 1 else degree name) degree

section

variable (localeCompare : JsString → JsString → ℤ)

/-- The order of a level. -/
def compareNodes (a b : GraphNode) : ℚ :=
  if a.weight ≠ b.weight then a.weight - b.weight
  else
    let byKey := localeCompare ((a.group.map NodeGroup.key).getD a.name)
      ((b.group.map NodeGroup.key).getD b.name)
    if byKey ≠ 0 then byKey
    else
      let byIndex := (a.group.map NodeGroup.index).getD 0 - (b.group.map NodeGroup.index).getD 0
      if byIndex ≠ 0 then byIndex else localeCompare a.name b.name

/-- The nodes that may come next. -/
def available (nodes : List GraphNode) (processed : List JsString) (degree : JsString → ℤ) :
    List GraphNode :=
  (nodes.filter (fun node => !processed.contains node.name && degree node.name = 0)).insertionSort
    (fun a b => compareNodes localeCompare a b ≤ 0)

/-- The levels that are left. -/
def sortLevels (nodes : List GraphNode) (processed : List JsString) (degree : JsString → ℤ) :
    Except SortError (List (List JsString)) :=
  if _hleft : processed.length < nodes.length then
    if _hnone : available localeCompare nodes processed degree = [] then
      .error (.cyclicDependency (findCycle nodes processed))
    else
      match sortLevels nodes
          (processed ++ (available localeCompare nodes processed degree).map GraphNode.name)
          ((available localeCompare nodes processed degree).foldl (release nodes) degree) with
      | .error error => .error error
      | .ok levels =>
        .ok ((available localeCompare nodes processed degree).map GraphNode.name :: levels)
  else .ok []
termination_by nodes.length - processed.length
decreasing_by
  have hpos : 0 < (available localeCompare nodes processed degree).length :=
    List.length_pos_iff.mpr _hnone
  rw [List.length_append, List.length_map]
  omega

/-- `sort`. -/
def sort (nodes : List GraphNode) : Except SortError (List (List JsString)) :=
  if duplicates (nodes.map GraphNode.name) ≠ [] then
    .error (.duplicateNodeName
      ((duplicates (nodes.map GraphNode.name)).dedup.insertionSort (· ≤ ·)))
  else sortLevels localeCompare nodes [] (inDegree nodes)

end

/-- Every node stands once in an order, and none before one it depends on. -/
structure Ordered (nodes : List GraphNode) (order : List JsString) : Prop where
  names : (nodes.map GraphNode.name).Nodup
  nodup : order.Nodup
  mem : ∀ name, name ∈ order ↔ name ∈ nodes.map GraphNode.name
  before : order.Pairwise (fun x y => ∀ node ∈ nodes, node.name = x → y ∉ node.dependencies)
  irrefl : ∀ node ∈ nodes, node.name ∉ node.dependencies

theorem duplicates_eq_nil {names : List JsString} : duplicates names = [] ↔ names.Nodup := by
  induction names with
  | nil => simp [duplicates]
  | cons name rest ih =>
    unfold duplicates
    by_cases hmem : name ∈ rest
    · simp [hmem]
    · simp [hmem, ih]

section

variable {nodes : List GraphNode}

/-- The dependencies of a node on known nodes that are not processed. -/
def waitsOn (nodes : List GraphNode) (processed : List JsString) (node : GraphNode) : List JsString :=
  node.dependencies.filter (fun dep => nodes.any (fun n => n.name = dep) && !processed.contains dep)

/-- The degrees count what nodes wait on. -/
def Degrees (nodes : List GraphNode) (processed : List JsString) (degree : JsString → ℤ) : Prop :=
  ∀ node ∈ nodes, degree node.name = (waitsOn nodes processed node).length

theorem foldl_decrement (names : List JsString) (degree : JsString → ℤ) (name : JsString) :
    names.foldl (fun degree dependent name =>
      if name = dependent then degree name - 1 else degree name) degree name =
      degree name - names.count name := by
  induction names generalizing degree with
  | nil => simp
  | cons first rest ih =>
    rw [List.foldl_cons, ih]
    by_cases hfirst : name = first
    · subst hfirst
      simp
      ring
    · rw [if_neg hfirst, List.count_cons_of_ne (fun h => hfirst h.symm)]

variable {node : GraphNode}

theorem filter_flatMap_name {list : List GraphNode} (hnames : (list.map GraphNode.name).Nodup)
    (deps : GraphNode → List JsString) (hmem : node ∈ list) :
    (list.flatMap (fun n => (deps n).map (fun dep => (n.name, dep)))).filter
      (fun edge => edge.1 = node.name) = (deps node).map (fun dep => (node.name, dep)) := by
  induction list with
  | nil => cases hmem
  | cons first rest ih =>
    rw [List.map_cons, List.nodup_cons] at hnames
    rw [List.flatMap_cons, List.filter_append]
    rcases List.mem_cons.mp hmem with rfl | hrest
    · have hothers : (rest.flatMap (fun n => (deps n).map (fun dep => (n.name, dep)))).filter
          (fun edge => edge.1 = node.name) = [] := by
        rw [List.filter_eq_nil_iff]
        intro edge hedge
        obtain ⟨n, hn, hmap⟩ := List.mem_flatMap.mp hedge
        obtain ⟨dep, -, rfl⟩ := List.mem_map.mp hmap
        have hne : n.name ≠ node.name := fun h => hnames.1 (h ▸ List.mem_map_of_mem hn)
        simpa using hne
      rw [hothers, List.append_nil, List.filter_eq_self]
      intro edge hedge
      obtain ⟨dep, -, rfl⟩ := List.mem_map.mp hedge
      simp
    · have hne : first.name ≠ node.name := fun h => hnames.1 (h ▸ List.mem_map_of_mem hrest)
      have hfirst : ((deps first).map (fun dep => (first.name, dep))).filter
          (fun edge => edge.1 = node.name) = [] := by
        rw [List.filter_eq_nil_iff]
        intro edge hedge
        obtain ⟨dep, -, rfl⟩ := List.mem_map.mp hedge
        simpa using hne
      rw [hfirst, List.nil_append, ih hnames.2 hrest]

/-- The dependencies of a node on known nodes. -/
def knownDependencies (nodes : List GraphNode) (node : GraphNode) : List JsString :=
  node.dependencies.filter (fun dep => nodes.any (fun n => n.name = dep))

theorem edges_of (hnames : (nodes.map GraphNode.name).Nodup) (hmem : node ∈ nodes) :
    (edges nodes).filter (fun edge => edge.1 = node.name) =
      (knownDependencies nodes node).map (fun dep => (node.name, dep)) :=
  filter_flatMap_name hnames (knownDependencies nodes) hmem

theorem count_eq_filter (names : List JsString) (name : JsString) :
    names.count name = (names.filter (fun n => n = name)).length := by
  rw [List.count_eq_countP, List.countP_eq_length_filter]
  congr 2
  funext n
  exact beq_eq_decide n name

theorem count_map_fst (list : List (JsString × JsString)) (name : JsString) :
    (list.map Prod.fst).count name = (list.filter (fun edge => edge.1 = name)).length := by
  rw [count_eq_filter, List.filter_map, List.length_map]
  rfl

theorem inDegree_eq (hnames : (nodes.map GraphNode.name).Nodup) (hmem : node ∈ nodes) :
    inDegree nodes node.name = (knownDependencies nodes node).length := by
  unfold inDegree
  rw [count_map_fst, edges_of hnames hmem, List.length_map]

theorem count_dependents (hnames : (nodes.map GraphNode.name).Nodup) (hmem : node ∈ nodes)
    (name : JsString) :
    (dependents nodes name).count node.name = (knownDependencies nodes node).count name := by
  unfold dependents
  rw [count_map_fst, List.filter_filter]
  have hswap : (edges nodes).filter (fun edge => decide (edge.1 = node.name) &&
      decide (edge.2 = name)) =
      ((edges nodes).filter (fun edge => edge.1 = node.name)).filter (fun edge => edge.2 = name) := by
    rw [List.filter_filter]
    congr 1
    funext edge
    exact Bool.and_comm _ _
  rw [hswap, edges_of hnames hmem, List.filter_map, List.length_map, count_eq_filter]
  rfl

/-- At first nothing is processed. -/
theorem Degrees.start (hnames : (nodes.map GraphNode.name).Nodup) :
    Degrees nodes [] (inDegree nodes) := by
  intro node hmem
  rw [inDegree_eq hnames hmem]
  unfold waitsOn knownDependencies
  simp

theorem length_waitsOn (processed : List JsString) (node : GraphNode) {name : JsString}
    (hnew : name ∉ processed) :
    (waitsOn nodes processed node).length =
      (waitsOn nodes (processed ++ [name]) node).length + (knownDependencies nodes node).count name := by
  have hcount : (knownDependencies nodes node).count name = (waitsOn nodes processed node).count name := by
    rw [count_eq_filter, count_eq_filter]
    unfold knownDependencies waitsOn
    rw [List.filter_filter, List.filter_filter]
    congr 2
    funext dep
    by_cases heq : dep = name
    · simp [heq, hnew]
    · simp [heq]
  have hrest : waitsOn nodes (processed ++ [name]) node =
      (waitsOn nodes processed node).filter (fun dep => !decide (dep = name)) := by
    unfold waitsOn
    rw [List.filter_filter]
    congr 1
    funext dep
    by_cases heq : dep = name <;> simp [heq]
  have hsplit := List.length_eq_length_filter_add (l := waitsOn nodes processed node)
    (fun dep => decide (dep = name))
  rw [hcount, hrest, count_eq_filter]
  omega

variable {processed : List JsString} {degree : JsString → ℤ}

/-- **Processing a node** takes its edges off. -/
theorem Degrees.release (hnames : (nodes.map GraphNode.name).Nodup)
    (h : Degrees nodes processed degree) (hnew : node.name ∉ processed) :
    Degrees nodes (processed ++ [node.name]) (release nodes degree node) := by
  intro n hn
  unfold Workflows.release
  rw [foldl_decrement, count_dependents hnames hn, h n hn, length_waitsOn processed n hnew]
  push_cast
  ring

theorem Degrees.releaseAll (hnames : (nodes.map GraphNode.name).Nodup) {level : List GraphNode}
    (h : Degrees nodes processed degree) (hnew : ∀ node ∈ level, node.name ∉ processed)
    (hlevel : (level.map GraphNode.name).Nodup) :
    Degrees nodes (processed ++ level.map GraphNode.name) (level.foldl (Workflows.release nodes) degree) := by
  induction level generalizing processed degree with
  | nil => simpa using h
  | cons first rest ih =>
    rw [List.map_cons, List.nodup_cons] at hlevel
    have hnext := h.release hnames (hnew first List.mem_cons_self)
    have hrest := ih hnext (fun node hnode hin => ?_) hlevel.2
    · rw [List.foldl_cons, List.map_cons]
      rwa [List.append_assoc] at hrest
    · rcases List.mem_append.mp hin with hin | hin
      · exact hnew node (List.mem_cons_of_mem first hnode) hin
      · rw [List.mem_singleton] at hin
        exact hlevel.1 (hin ▸ List.mem_map_of_mem hnode)

variable (localeCompare : JsString → JsString → ℤ)

theorem available_perm (processed : List JsString) (degree : JsString → ℤ) :
    (available localeCompare nodes processed degree).Perm
      (nodes.filter (fun node => !processed.contains node.name && degree node.name = 0)) :=
  List.perm_insertionSort _ _

theorem mem_available :
    node ∈ available localeCompare nodes processed degree ↔
      node ∈ nodes ∧ node.name ∉ processed ∧ degree node.name = 0 := by
  rw [(available_perm localeCompare processed degree).mem_iff, List.mem_filter]
  simp

/-- What the levels that are left hold, after what is processed. -/
structure Orders (nodes : List GraphNode) (processed order : List JsString) : Prop where
  nodup : order.Nodup
  fresh : ∀ name ∈ order, name ∉ processed
  known : ∀ name ∈ order, name ∈ nodes.map GraphNode.name
  all : ∀ name ∈ nodes.map GraphNode.name, name ∈ processed ∨ name ∈ order
  before : order.Pairwise (fun x y => ∀ node ∈ nodes, node.name = x → y ∉ node.dependencies)
  irrefl : ∀ node ∈ nodes, node.name ∈ order → node.name ∉ node.dependencies

theorem Degrees.done (h : Degrees nodes processed degree) (hmem : node ∈ nodes)
    (hzero : degree node.name = 0) {dep : JsString} (hknown : dep ∈ nodes.map GraphNode.name)
    (hnew : dep ∉ processed) : dep ∉ node.dependencies := by
  intro hdep
  have hempty : waitsOn nodes processed node = [] := by
    have hlength := h node hmem
    rw [hzero] at hlength
    exact List.length_eq_zero_iff.mp (by exact_mod_cast hlength.symm)
  obtain ⟨n, hn, rfl⟩ := List.mem_map.mp hknown
  have hin : n.name ∈ waitsOn nodes processed node := by
    unfold waitsOn
    rw [List.mem_filter]
    refine ⟨hdep, ?_⟩
    simp only [List.any_eq_true, decide_eq_true_eq, Bool.and_eq_true, Bool.not_eq_true',
      List.contains_eq_mem, decide_eq_false_iff_not]
    exact ⟨⟨n, hn, rfl⟩, hnew⟩
  rw [hempty] at hin
  cases hin

theorem available_nodup (hnames : (nodes.map GraphNode.name).Nodup) :
    ((available localeCompare nodes processed degree).map GraphNode.name).Nodup := by
  rw [((available_perm localeCompare processed degree).map GraphNode.name).nodup_iff]
  exact hnames.sublist (List.filter_sublist.map GraphNode.name)

theorem append_available_nodup (hnames : (nodes.map GraphNode.name).Nodup)
    (hprocessed : processed.Nodup) :
    (processed ++ (available localeCompare nodes processed degree).map GraphNode.name).Nodup := by
  apply List.Nodup.append hprocessed (available_nodup localeCompare hnames)
  intro name hin hlevel
  obtain ⟨node, hnode, rfl⟩ := List.mem_map.mp hlevel
  exact ((mem_available localeCompare).mp hnode).2.1 hin

theorem append_available_known (hknown : processed ⊆ nodes.map GraphNode.name) :
    processed ++ (available localeCompare nodes processed degree).map GraphNode.name ⊆
      nodes.map GraphNode.name := by
  intro name hname
  rcases List.mem_append.mp hname with hin | hlevel
  · exact hknown hin
  · obtain ⟨node, hnode, rfl⟩ := List.mem_map.mp hlevel
    exact List.mem_map_of_mem ((mem_available localeCompare).mp hnode).1

/-- **One more level** in front of the others. -/
theorem Orders.level {order : List JsString} (hnames : (nodes.map GraphNode.name).Nodup)
    (hdegrees : Degrees nodes processed degree) (h : Orders nodes
      (processed ++ (available localeCompare nodes processed degree).map GraphNode.name) order) :
    Orders nodes processed
      ((available localeCompare nodes processed degree).map GraphNode.name ++ order) := by
  -- what is not processed is no dependency of a node of the level
  have hlevel : ∀ x ∈ (available localeCompare nodes processed degree).map GraphNode.name,
      x ∈ nodes.map GraphNode.name ∧ x ∉ processed ∧ ∀ node ∈ nodes, node.name = x →
        ∀ y ∈ nodes.map GraphNode.name, y ∉ processed → y ∉ node.dependencies := by
    intro x hx
    obtain ⟨node, hnode, rfl⟩ := List.mem_map.mp hx
    obtain ⟨hmem, hnew, hzero⟩ := (mem_available localeCompare).mp hnode
    refine ⟨List.mem_map_of_mem hmem, hnew, ?_⟩
    intro other hother hsame y hy hynew
    exact hdegrees.done hother (hsame ▸ hzero) hy hynew
  have hfresh : ∀ y ∈ order, y ∉ processed :=
    fun y hy hin => h.fresh y hy (List.mem_append_left _ hin)
  constructor
  case nodup =>
    apply List.Nodup.append (available_nodup localeCompare hnames) h.nodup
    exact fun name hin horder => h.fresh name horder (List.mem_append_right _ hin)
  case fresh =>
    intro name hname
    rcases List.mem_append.mp hname with hin | hin
    · exact (hlevel name hin).2.1
    · exact hfresh name hin
  case known =>
    intro name hname
    rcases List.mem_append.mp hname with hin | hin
    · exact (hlevel name hin).1
    · exact h.known name hin
  case all =>
    intro name hname
    rcases h.all name hname with hin | hin
    · rcases List.mem_append.mp hin with hin | hin
      · exact Or.inl hin
      · exact Or.inr (List.mem_append_left _ hin)
    · exact Or.inr (List.mem_append_right _ hin)
  case before =>
    refine List.pairwise_append.mpr ⟨?_, h.before, ?_⟩
    · apply List.pairwise_of_forall_mem_list
      intro x hx y hy node hnode hname
      exact (hlevel x hx).2.2 node hnode hname y (hlevel y hy).1 (hlevel y hy).2.1
    · intro x hx y hy node hnode hname
      exact (hlevel x hx).2.2 node hnode hname y (h.known y hy) (hfresh y hy)
  case irrefl =>
    intro node hnode hin
    rcases List.mem_append.mp hin with hin | hin
    · exact (hlevel _ hin).2.2 node hnode rfl _ (hlevel _ hin).1 (hlevel _ hin).2.1
    · exact h.irrefl node hnode hin

/-- **The levels that are left** are an order of the nodes that are. -/
theorem sortLevels_orders (hnames : (nodes.map GraphNode.name).Nodup)
    (hdegrees : Degrees nodes processed degree) (hprocessed : processed.Nodup)
    (hknown : processed ⊆ nodes.map GraphNode.name) {levels : List (List JsString)}
    (hsort : sortLevels localeCompare nodes processed degree = .ok levels) :
    Orders nodes processed levels.flatten := by
  fun_induction sortLevels localeCompare nodes processed degree generalizing levels with
  | case1 processed degree hleft hnone
  | case2 processed degree hleft hsome error herror ih => cases hsort
  | case3 processed degree hleft hsome rest hrest ih =>
    obtain rfl := Except.ok.inj hsort
    exact (ih (hdegrees.releaseAll hnames (fun _ h => ((mem_available localeCompare).mp h).2.1)
      (available_nodup localeCompare hnames))
      (append_available_nodup localeCompare hnames hprocessed)
      (append_available_known localeCompare hknown) hrest).level localeCompare hnames hdegrees
  | case4 processed degree hdone =>
    obtain rfl := Except.ok.inj hsort
    have hall : (nodes.map GraphNode.name) ⊆ processed := by
      have hperm := (List.subperm_of_subset hprocessed hknown).perm_of_length_le
        (by rw [List.length_map]; omega)
      exact fun name hname => hperm.mem_iff.mpr hname
    constructor
    case nodup => exact List.nodup_nil
    case fresh => exact fun name hname => absurd hname List.not_mem_nil
    case known => exact fun name hname => absurd hname List.not_mem_nil
    case all => exact fun name hname => Or.inl (hall hname)
    case before => exact List.Pairwise.nil
    case irrefl => exact fun node _ hname => absurd hname List.not_mem_nil

/-- **The order of a sort.** -/
theorem sort_ordered {levels : List (List JsString)} (hsort : sort localeCompare nodes = .ok levels) :
    Ordered nodes levels.flatten := by
  unfold sort at hsort
  split at hsort
  · cases hsort
  · rename_i hdup
    have hnames : (nodes.map GraphNode.name).Nodup := duplicates_eq_nil.mp (not_not.mp hdup)
    have horders := sortLevels_orders localeCompare hnames (Degrees.start hnames) List.nodup_nil
      (List.nil_subset _) hsort
    have hmem : ∀ name, name ∈ levels.flatten ↔ name ∈ nodes.map GraphNode.name :=
      fun name => ⟨horders.known name, fun h => (horders.all name h).resolve_left (by simp)⟩
    exact ⟨hnames, horders.nodup, hmem, horders.before,
      fun node hnode => horders.irrefl node hnode ((hmem _).mpr (List.mem_map_of_mem hnode))⟩

end

end Swamp.Workflows
