import Mathlib.Data.Prod.Lex
import Swamp.Layers
import Swamp.TopologicalSort

/-!
# The levels of a sort, and its errors

A level holds the nodes left whose dependencies among the nodes are done.  Where no
node is free, those left hold a cycle, which the error names; names that repeat are told
before the first level.
-/

namespace Swamp.Workflows

open Js

/-- A node of the first name depends on a node of the second. -/
def DependsOn (nodes : List GraphNode) (x y : JsString) : Prop :=
  ∃ node ∈ nodes, node.name = x ∧ y ∈ node.dependencies ∧ y ∈ nodes.map GraphNode.name

theorem DependsOn.mem {nodes : List GraphNode} {x y : JsString} (h : DependsOn nodes x y) :
    x ∈ nodes.map GraphNode.name := by
  obtain ⟨node, hnode, hname, -, -⟩ := h
  exact hname ▸ List.mem_map_of_mem hnode

variable {node : GraphNode}

section

variable {nodes : List GraphNode} (localeCompare : JsString → JsString → ℤ)

variable {processed : List JsString}

theorem exists_waits (hnode : node ∈ nodes) (hwaits : waitsOn nodes processed node ≠ []) :
    ∃ dep, DependsOn nodes node.name dep ∧ dep ∉ processed := by
  obtain ⟨dep, hdep⟩ := List.exists_mem_of_ne_nil _ hwaits
  unfold waitsOn at hdep
  simp only [List.mem_filter, Bool.and_eq_true, List.any_eq_true, decide_eq_true_eq,
    Bool.not_eq_true', List.contains_eq_mem, decide_eq_false_iff_not] at hdep
  obtain ⟨hin, ⟨other, hother, hname⟩, hnew⟩ := hdep
  exact ⟨dep, ⟨node, hnode, rfl, hin, hname ▸ List.mem_map_of_mem hother⟩, hnew⟩

variable {degree : JsString → ℤ}

theorem Degrees.waits (h : Degrees nodes processed degree) (hnode : node ∈ nodes)
    (hnew : node.name ∉ processed) (hleft : node ∉ available localeCompare nodes processed degree) :
    ∃ dep, DependsOn nodes node.name dep ∧ dep ∉ processed := by
  apply exists_waits hnode
  intro hnone
  refine hleft ((mem_available localeCompare).mpr ⟨hnode, hnew, ?_⟩)
  rw [h node hnode, hnone]
  rfl

theorem Degrees.level (hnames : (nodes.map GraphNode.name).Nodup)
    (h : Degrees nodes processed degree) :
    Degrees nodes
      (processed ++ (available localeCompare nodes processed degree).map GraphNode.name)
      ((available localeCompare nodes processed degree).foldl (Workflows.release nodes) degree) :=
  h.releaseAll hnames (fun _ hnode => ((mem_available localeCompare).mp hnode).2.1)
    (available_nodup localeCompare hnames)

/-- Every node that is left waits on one that was not processed before the last
level. -/
def Waits (nodes : List GraphNode) (processed : List JsString) (previous : Option (List JsString)) :
    Prop :=
  ∀ before ∈ previous, ∃ earlier, processed = earlier ++ before ∧
    ∀ node ∈ nodes, node.name ∉ processed →
      ∃ dep, DependsOn nodes node.name dep ∧ dep ∉ earlier

theorem nodup_names_unique (hnames : (nodes.map GraphNode.name).Nodup) {a b : GraphNode}
    (ha : a ∈ nodes) (hb : b ∈ nodes) (hname : a.name = b.name) : a = b :=
  List.inj_on_of_nodup_map hnames ha hb hname

/-- **The levels that are left** are layers, after what is processed. -/
theorem sortLevels_layered (hnames : (nodes.map GraphNode.name).Nodup)
    (hdegrees : Degrees nodes processed degree) {previous : Option (List JsString)}
    (hwaits : Waits nodes processed previous) {levels : List (List JsString)}
    (hsort : sortLevels localeCompare nodes processed degree = .ok levels) :
    LayeredFrom (DependsOn nodes) processed previous levels := by
  fun_induction sortLevels localeCompare nodes processed degree generalizing previous levels with
  | case1 processed degree hleft hnone
  | case2 processed degree hleft hsome error herror ih => cases hsort
  | case3 processed degree hleft hsome rest hrest ih =>
    cases hsort
    have hnext := hdegrees.level localeCompare hnames
    have hlevel : Waits nodes
        (processed ++ (available localeCompare nodes processed degree).map GraphNode.name)
        (some ((available localeCompare nodes processed degree).map GraphNode.name)) := by
      intro before hbefore
      cases hbefore
      refine ⟨processed, rfl, ?_⟩
      intro node hnode hnew
      rw [List.mem_append, not_or] at hnew
      exact hdegrees.waits localeCompare hnode hnew.1
        (fun hin => hnew.2 (List.mem_map_of_mem hin))
    have hdone : ∀ x ∈ (available localeCompare nodes processed degree).map GraphNode.name,
        ∀ y, DependsOn nodes x y → y ∈ processed := by
      intro x hx y hxy
      obtain ⟨node, hnode, hname⟩ := List.mem_map.mp hx
      obtain ⟨other, hother, hsame, hdep, hknown⟩ := hxy
      obtain ⟨hmem, -, hzero⟩ := (mem_available localeCompare).mp hnode
      rw [nodup_names_unique hnames hother hmem (hsame.trans hname.symm)] at hdep
      by_contra hy
      exact hdegrees.done hmem hzero hknown hy hdep
    apply (ih hnext hlevel hrest).cons hdone
    intro before hbefore x hx
    obtain ⟨earlier, hprocessed, hleft⟩ := hwaits before hbefore
    obtain ⟨node, hnode, hname⟩ := List.mem_map.mp hx
    obtain ⟨hmem, hnew, -⟩ := (mem_available localeCompare).mp hnode
    obtain ⟨dep, hdep, hlate⟩ := hleft node hmem hnew
    rw [hname] at hdep
    have hin := hdone x hx dep hdep
    rw [hprocessed, List.mem_append] at hin
    exact ⟨dep, hin.resolve_left hlate, hdep⟩
  | case4 processed degree hdone =>
    cases hsort
    exact layeredFrom_nil processed previous

/-- No level is empty. -/
theorem sortLevels_ne_nil {levels : List (List JsString)}
    (hsort : sortLevels localeCompare nodes processed degree = .ok levels) :
    ∀ level ∈ levels, level ≠ [] := by
  fun_induction sortLevels localeCompare nodes processed degree generalizing levels with
  | case1 processed degree hleft hnone
  | case2 processed degree hleft hsome error herror ih => cases hsort
  | case3 processed degree hleft hsome rest hrest ih =>
    cases hsort
    refine List.forall_mem_cons.mpr ⟨?_, ih hrest⟩
    exact fun hempty => hsome (List.map_eq_nil_iff.mp hempty)
  | case4 processed degree hdone =>
    cases hsort
    exact List.forall_mem_nil _

/-- **Where no level is left** a search begins, among nodes that all wait. -/
theorem sortLevels_error (hnames : (nodes.map GraphNode.name).Nodup)
    (hdegrees : Degrees nodes processed degree) {error : SortError}
    (hsort : sortLevels localeCompare nodes processed degree = .error error) :
    ∃ done, error = .cyclicDependency (findCycle nodes done) ∧ done.length < nodes.length ∧
      ∀ node ∈ nodes, node.name ∉ done → ∃ dep, DependsOn nodes node.name dep ∧ dep ∉ done := by
  fun_induction sortLevels localeCompare nodes processed degree with
  | case1 processed degree hleft hnone =>
    cases hsort
    refine ⟨processed, rfl, hleft, ?_⟩
    intro node hnode hnew
    apply hdegrees.waits localeCompare hnode hnew
    rw [hnone]
    exact List.not_mem_nil
  | case2 processed degree hleft hsome other hother ih =>
    cases hsort
    exact ih (hdegrees.level localeCompare hnames) hother
  | case3 processed degree hleft hsome rest hrest ih | case4 processed degree hdone => cases hsort

end

variable {name : JsString}

section

variable {unprocessed : List GraphNode}

theorem any_name {dep : JsString} :
    (unprocessed.any (fun n => n.name = dep)) = true ↔ dep ∈ unprocessed.map GraphNode.name := by
  rw [List.any_eq_true, List.mem_map]
  simp only [decide_eq_true_eq]

theorem find_name (h : unprocessed.find? (fun node => node.name = name) = some node) :
    node ∈ unprocessed ∧ node.name = name :=
  ⟨List.mem_of_find?_eq_some h, of_decide_eq_true
    (@List.find?_some _ (fun node : GraphNode => decide (node.name = name)) _ _ h)⟩

variable {path : List JsString}

theorem dfs_visiting (h : path.contains name = true) :
    dfs unprocessed path name = some (path.drop (path.idxOf name) ++ [name]) := by
  rw [dfs, dif_pos h]

theorem dfs_unknown (h : ¬ path.contains name = true)
    (hnone : unprocessed.find? (fun node => node.name = name) = none) :
    dfs unprocessed path name = none := by
  rw [dfs, dif_neg h]
  split
  case h_1 => rfl
  case h_2 other hother => cases hnone.symm.trans hother

theorem dfs_node (h : ¬ path.contains name = true)
    (hnode : unprocessed.find? (fun node => node.name = name) = some node) :
    dfs unprocessed path name = dfsEach unprocessed (path ++ [name])
      (node.dependencies.filter (fun dep => unprocessed.any (fun n => n.name = dep))) := by
  rw [dfs, dif_neg h]
  split
  case h_1 hnone => cases hnode.symm.trans hnone
  case h_2 other hother =>
    cases hnode.symm.trans hother
    rfl

/-- **A search among nodes that all wait** finds something. -/
theorem dfs_isSome (hwaits : ∀ node ∈ unprocessed,
      ∃ dep ∈ node.dependencies, dep ∈ unprocessed.map GraphNode.name)
    (path : List JsString) (name : JsString) (hname : name ∈ unprocessed.map GraphNode.name) :
    (dfs unprocessed path name).isSome = true := by
  -- the induction is along the search; of the dependencies, the first is enough
  refine dfs.induct unprocessed
    (fun path name => name ∈ unprocessed.map GraphNode.name →
      (dfs unprocessed path name).isSome = true)
    (fun path deps => deps ≠ [] → (∀ dep ∈ deps, dep ∈ unprocessed.map GraphNode.name) →
      (dfsEach unprocessed path deps).isSome = true) ?_ ?_ ?_ ?_ ?_ ?_ path name hname
  · intro path name hvisiting _
    rw [dfs_visiting hvisiting]
    rfl
  · intro path name hvisiting hnone hname
    obtain ⟨node, hnode, hsame⟩ := List.mem_map.mp hname
    have hother := List.find?_eq_none.mp hnone node hnode
    exact absurd (decide_eq_true hsame) hother
  · intro path name hvisiting node hnode ih hname
    rw [dfs_node hvisiting hnode]
    obtain ⟨dep, hdep, hknown⟩ := hwaits node (find_name hnode).1
    apply ih
    · exact List.ne_nil_of_mem (List.mem_filter.mpr ⟨hdep, any_name.mpr hknown⟩)
    · intro other hother
      exact any_name.mp (List.mem_filter.mp hother).2
  · intro path hsome
    exact absurd rfl hsome
  · intro path dep rest cycle hcycle _ _ _
    rw [dfsEach, hcycle]
    rfl
  · intro path dep rest hnone ih _ _ hknown
    have hfound := ih (hknown dep List.mem_cons_self)
    rw [hnone] at hfound
    cases hfound

/-- **What a search finds** is a cycle. -/
theorem dfs_cycle {nodes : List GraphNode} (hsub : unprocessed ⊆ nodes) (path : List JsString)
    (name : JsString) (hpath : (path ++ [name]).IsChain (DependsOn nodes)) (hnodup : path.Nodup) :
    ∀ cycle, dfs unprocessed path name = some cycle → IsCycle (DependsOn nodes) cycle := by
  refine dfs.induct unprocessed
    (fun path name => (path ++ [name]).IsChain (DependsOn nodes) → path.Nodup →
      ∀ cycle, dfs unprocessed path name = some cycle → IsCycle (DependsOn nodes) cycle)
    (fun path deps => (∀ dep ∈ deps, (path ++ [dep]).IsChain (DependsOn nodes)) → path.Nodup →
      ∀ cycle, dfsEach unprocessed path deps = some cycle → IsCycle (DependsOn nodes) cycle)
    ?_ ?_ ?_ ?_ ?_ ?_ path name hpath hnodup
  · intro path name hvisiting hpath hnodup cycle hcycle
    rw [dfs_visiting hvisiting] at hcycle
    cases hcycle
    exact isCycle_drop hpath hnodup (List.contains_iff_mem.mp hvisiting)
  · intro path name hvisiting hnone _ _ cycle hcycle
    rw [dfs_unknown hvisiting hnone] at hcycle
    cases hcycle
  · intro path name hvisiting node hnode ih hpath hnodup cycle hcycle
    rw [dfs_node hvisiting hnode] at hcycle
    obtain ⟨hmem, hname⟩ := find_name hnode
    refine ih ?_ ?_ cycle hcycle
    · -- the name's node depends on each of these
      intro dep hdep
      obtain ⟨hin, hknown⟩ := List.mem_filter.mp hdep
      rw [List.append_assoc, List.singleton_append, List.isChain_append_cons_cons]
      obtain ⟨other, hother, hsame⟩ := List.mem_map.mp (any_name.mp hknown)
      exact ⟨hpath, ⟨node, hsub hmem, hname, hin, hsame ▸ List.mem_map_of_mem (hsub hother)⟩,
        List.isChain_singleton dep⟩
    · exact List.nodup_append.mpr ⟨hnodup, List.nodup_singleton name, fun a ha b hb => by
        rw [List.mem_singleton.mp hb]
        intro hsame
        exact hvisiting (List.contains_iff_mem.mpr (hsame ▸ ha))⟩
  · intro path _ _ cycle hcycle
    rw [dfsEach] at hcycle
    cases hcycle
  · intro path dep rest found hfound ih hdeps hnodup cycle hcycle
    rw [dfsEach, hfound] at hcycle
    cases hcycle
    exact ih (hdeps dep List.mem_cons_self) hnodup found hfound
  · intro path dep rest hnone _ ih hdeps hnodup cycle hcycle
    rw [dfsEach, hnone] at hcycle
    exact ih (fun other hother => hdeps other (List.mem_cons_of_mem dep hother)) hnodup cycle
      hcycle

end

section

variable {nodes : List GraphNode}

/-- **`findCycle`** finds a cycle where every node that is left waits on another
that is. -/
theorem findCycle_isCycle (hnames : (nodes.map GraphNode.name).Nodup) {done : List JsString}
    (hleft : done.length < nodes.length)
    (hwaits : ∀ node ∈ nodes, node.name ∉ done →
      ∃ dep, DependsOn nodes node.name dep ∧ dep ∉ done) :
    IsCycle (DependsOn nodes) (findCycle nodes done) := by
  unfold findCycle
  dsimp only
  have hsub : nodes.filter (fun node => !done.contains node.name) ⊆ nodes :=
    List.filter_sublist.subset
  have hmem : ∀ node, node ∈ nodes.filter (fun node => !done.contains node.name) ↔
      node ∈ nodes ∧ node.name ∉ done := by
    intro node
    simp [List.mem_filter]
  have hwaits' : ∀ node ∈ nodes.filter (fun node => !done.contains node.name),
      ∃ dep ∈ node.dependencies,
        dep ∈ (nodes.filter (fun node => !done.contains node.name)).map GraphNode.name := by
    intro node hnode
    obtain ⟨hin, hnew⟩ := (hmem node).mp hnode
    obtain ⟨dep, ⟨other, hother, hsame, hdep, hknown⟩, hlate⟩ := hwaits node hin hnew
    rw [nodup_names_unique hnames hother hin hsame] at hdep
    obtain ⟨target, htarget, hname⟩ := List.mem_map.mp hknown
    exact ⟨dep, hdep, hname ▸ List.mem_map_of_mem ((hmem target).mpr ⟨htarget, hname ▸ hlate⟩)⟩
  -- some node is left
  have hsome : nodes.filter (fun node => !done.contains node.name) ≠ [] := by
    intro hnone
    have hall : nodes.map GraphNode.name ⊆ done := by
      intro name hname
      obtain ⟨node, hnode, hsame⟩ := List.mem_map.mp hname
      by_contra hnew
      have hin := (hmem node).mpr ⟨hnode, hsame ▸ hnew⟩
      rw [hnone] at hin
      cases hin
    have hlength := (List.subperm_of_subset hnames hall).length_le
    rw [List.length_map] at hlength
    omega
  cases hfind : (nodes.filter (fun node => !done.contains node.name)).findSome?
      (fun node => dfs (nodes.filter (fun node => !done.contains node.name)) [] node.name) with
  | none =>
    obtain ⟨node, hnode⟩ := List.exists_mem_of_ne_nil _ hsome
    have hfound := dfs_isSome hwaits' [] node.name (List.mem_map_of_mem hnode)
    rw [List.findSome?_eq_none_iff.mp hfind node hnode] at hfound
    cases hfound
  | some cycle =>
    obtain ⟨node, -, hcycle⟩ := List.exists_of_findSome?_eq_some hfind
    exact dfs_cycle hsub [] node.name (List.isChain_singleton _) List.nodup_nil cycle hcycle

theorem mem_duplicates {names : List JsString} :
    name ∈ duplicates names ↔ 2 ≤ names.count name := by
  induction names with
  | nil => simp [duplicates]
  | cons first rest ih =>
    unfold duplicates
    by_cases hsame : first = name
    · rw [hsame, List.count_cons_self]
      by_cases hmem : name ∈ rest
      · have hpos := List.count_pos_iff.mpr hmem
        simp only [List.contains_eq_mem, hmem, decide_true, if_true, List.mem_cons_self, true_iff]
        omega
      · have hzero := List.count_eq_zero.mpr hmem
        simp only [List.contains_eq_mem, hmem, decide_false, Bool.false_eq_true, if_false, ih]
        omega
    · rw [List.count_cons_of_ne hsame, ← ih]
      split
      · simp [Ne.symm hsame]
      · rfl

/-- **The sort.** Distinct names without a cycle of dependencies are put in levels, none of them
empty, each node after what it depends on and in the level its longest chain of dependencies
asks for; repeated names are named; else a cycle is. -/
theorem sort_levels_or_cycle (localeCompare : JsString → JsString → ℤ) (nodes : List GraphNode) :
    ((nodes.map GraphNode.name).Nodup →
      (∀ name, ¬ Relation.TransGen (DependsOn nodes) name name) →
      ∃ levels, sort localeCompare nodes = .ok levels ∧
        levels.flatten.Perm (nodes.map GraphNode.name) ∧ (∀ level ∈ levels, level ≠ []) ∧
        (∀ (k : ℕ) (level : List JsString), levels[k]? = some level → ∀ name ∈ level,
          (∀ dep, DependsOn nodes name dep →
            ∃ j < k, ∃ earlier, levels[j]? = some earlier ∧ dep ∈ earlier) ∧
          IsGreatest {n | ∃ path : List JsString, path.length = n ∧
            (name :: path).IsChain (DependsOn nodes)} k)) ∧
    (¬ (nodes.map GraphNode.name).Nodup →
      ∃ names, sort localeCompare nodes = .error (.duplicateNodeName names) ∧ names.Nodup ∧
        ∀ name, name ∈ names ↔ 2 ≤ (nodes.map GraphNode.name).count name) ∧
    ((nodes.map GraphNode.name).Nodup →
      (∃ name, Relation.TransGen (DependsOn nodes) name name) →
      ∃ cycle, sort localeCompare nodes = .error (.cyclicDependency cycle) ∧
        2 ≤ cycle.length ∧ cycle.IsChain (DependsOn nodes) ∧ cycle.head? = cycle.getLast? ∧
        cycle.dropLast.Nodup) := by
  have hdistinct : (nodes.map GraphNode.name).Nodup →
      sort localeCompare nodes = sortLevels localeCompare nodes [] (inDegree nodes) := by
    intro hnames
    unfold sort
    rw [if_neg (not_not.mpr (duplicates_eq_nil.mpr hnames))]
  have hlayers : (nodes.map GraphNode.name).Nodup → ∀ levels,
      sort localeCompare nodes = .ok levels → Layered (DependsOn nodes) levels := by
    intro hnames levels hsort
    rw [hdistinct hnames] at hsort
    have hstart : Waits nodes [] none := by
      intro before hbefore
      cases hbefore
    exact sortLevels_layered localeCompare hnames (Degrees.start hnames) hstart hsort
  refine ⟨?_, ?_, ?_⟩
  · intro hnames hacyclic
    cases hsort : sort localeCompare nodes with
    | error error =>
      rw [hdistinct hnames] at hsort
      obtain ⟨done, -, hleft, hwaits⟩ :=
        sortLevels_error localeCompare hnames (Degrees.start hnames) hsort
      obtain ⟨name, -, hreaches⟩ := (findCycle_isCycle hnames hleft hwaits).transGen
      exact absurd hreaches (hacyclic name)
    | ok levels =>
      have hordered := sort_ordered localeCompare hsort
      have hlayered := hlayers hnames levels hsort
      refine ⟨levels, rfl, ?_, ?_, ?_⟩
      · exact (List.perm_ext_iff_of_nodup hordered.nodup hnames).mpr hordered.mem
      · rw [hdistinct hnames] at hsort
        exact sortLevels_ne_nil localeCompare hsort
      · intro k level hlevel name hname
        exact ⟨fun dep hdep => hlayered.earlier hlevel hname hdep,
          hlayered.longest hlevel hname⟩
  · intro hrepeated
    have hsome : duplicates (nodes.map GraphNode.name) ≠ [] :=
      fun hnone => hrepeated (duplicates_eq_nil.mp hnone)
    have hperm := List.perm_insertionSort (· ≤ ·) (duplicates (nodes.map GraphNode.name)).dedup
    refine ⟨_, by unfold sort; rw [if_pos hsome], ?_, ?_⟩
    · exact hperm.nodup_iff.mpr (List.nodup_dedup _)
    · intro name
      rw [hperm.mem_iff, List.mem_dedup, mem_duplicates]
  · intro hnames hcyclic
    obtain ⟨name, hreaches⟩ := hcyclic
    cases hsort : sort localeCompare nodes with
    | error error =>
      rw [hdistinct hnames] at hsort
      obtain ⟨done, herror, hleft, hwaits⟩ :=
        sortLevels_error localeCompare hnames (Degrees.start hnames) hsort
      have hcycle := findCycle_isCycle hnames hleft hwaits
      exact ⟨_, by rw [herror], hcycle.long, hcycle.chain, hcycle.closed, hcycle.once⟩
    | ok levels =>
      -- a name that reaches itself stands in no layer
      have hknown : name ∈ nodes.map GraphNode.name := by
        obtain ⟨next, hfirst, -⟩ := Relation.TransGen.head'_iff.mp hreaches
        exact hfirst.mem
      have hin := ((sort_ordered localeCompare hsort).mem name).mpr hknown
      obtain ⟨level, hlevel, hname⟩ := List.mem_flatten.mp hin
      obtain ⟨k, hk⟩ := List.mem_iff_getElem?.mp hlevel
      exact ((hlayers hnames levels hsort).acyclic hreaches hk hname).elim

end

section Listed

variable {κ : Type} {localeCompare : JsString → JsString → ℤ}
  {key : JsString → κ} {nodes other : List GraphNode}

/-- `localeCompare` compares texts by their keys. -/
structure Collates [LinearOrder κ] (localeCompare : JsString → JsString → ℤ) (key : JsString → κ) : Prop where
  before : ∀ a b, localeCompare a b < 0 ↔ key a < key b
  after : ∀ a b, 0 < localeCompare a b ↔ key b < key a

/-- What a level is sorted by. -/
def rank (key : JsString → κ) (node : GraphNode) : ℚ ×ₗ κ ×ₗ ℤ ×ₗ κ :=
  toLex (node.weight, toLex (key ((node.group.map NodeGroup.key).getD node.name),
    toLex ((node.group.map NodeGroup.index).getD 0, key node.name)))

theorem rank_injective (hnames : (nodes.map GraphNode.name).Nodup)
    (hapart : ∀ a ∈ nodes, ∀ b ∈ nodes, key a.name = key b.name → a.name = b.name)
    {a b : GraphNode} (ha : a ∈ nodes) (hb : b ∈ nodes) (h : rank key a = rank key b) : a = b := by
  have hkey : key a.name = key b.name := by
    simp only [rank, EmbeddingLike.apply_eq_iff_eq, Prod.mk.injEq] at h
    exact h.2.2.2
  exact List.inj_on_of_nodup_map hnames ha hb (hapart a ha b hb hkey)

theorem edges_perm (hperm : nodes.Perm other) : (edges nodes).Perm (edges other) := by
  have hknown : ∀ dep, nodes.any (fun n => n.name = dep) = other.any (fun n => n.name = dep) :=
    fun dep => hperm.any_eq
  unfold edges
  simp only [hknown]
  exact hperm.flatMap_right _

theorem release_perm (hperm : nodes.Perm other) : release nodes = release other := by
  funext degree node name
  have hdependents : (dependents nodes node.name).Perm (dependents other node.name) :=
    ((edges_perm hperm).filter _).map _
  unfold release
  rw [foldl_decrement, foldl_decrement, hdependents.count_eq]

theorem inDegree_perm (hperm : nodes.Perm other) : inDegree nodes = inDegree other := by
  funext name
  unfold inDegree
  rw [((edges_perm hperm).map Prod.fst).count_eq]

variable [LinearOrder κ]

theorem compareNodes_le_iff (h : Collates localeCompare key) (a b : GraphNode) :
    compareNodes localeCompare a b ≤ 0 ↔ rank key a ≤ rank key b := by
  have hcompare : ∀ x y, (localeCompare x y = 0 ↔ key x = key y) ∧
      (localeCompare x y ≤ 0 ↔ key x ≤ key y) := by
    intro x y
    have hbefore := h.before x y
    have hafter := h.after x y
    grind
  have hkeys := hcompare ((a.group.map NodeGroup.key).getD a.name)
    ((b.group.map NodeGroup.key).getD b.name)
  have hnames := hcompare a.name b.name
  unfold compareNodes rank
  simp only [Prod.Lex.toLex_le_toLex]
  split_ifs with hweight hkey hindex
  · grind
  · rw [Int.cast_nonpos]
    grind
  · rw [Int.cast_nonpos]
    grind
  · rw [Int.cast_nonpos]
    grind

theorem available_sorted (h : Collates localeCompare key) (processed : List JsString)
    (degree : JsString → ℤ) : (available localeCompare nodes processed degree).Pairwise
      (fun a b => rank key a ≤ rank key b) := by
  unfold available
  simp only [compareNodes_le_iff h]
  exact @List.pairwise_insertionSort _ (fun a b => rank key a ≤ rank key b) _
    ⟨fun _ _ => le_total _ _⟩ ⟨fun _ _ _ => le_trans⟩ _

theorem available_listed (hperm : nodes.Perm other) (h : Collates localeCompare key)
    (hnames : (nodes.map GraphNode.name).Nodup)
    (hapart : ∀ a ∈ nodes, ∀ b ∈ nodes, key a.name = key b.name → a.name = b.name)
    (processed : List JsString) (degree : JsString → ℤ) :
    available localeCompare nodes processed degree =
      available localeCompare other processed degree := by
  refine List.Perm.eq_of_pairwise ?_ (available_sorted h _ _) (available_sorted h _ _) ?_
  · intro a b ha hb hab hba
    have hb' := hperm.mem_iff.mpr ((mem_available localeCompare).mp hb).1
    exact rank_injective hnames hapart ((mem_available localeCompare).mp ha).1 hb'
      (le_antisymm hab hba)
  · apply (available_perm localeCompare processed degree).trans
    exact (hperm.filter _).trans (available_perm localeCompare processed degree).symm

theorem sortLevels_sorted (h : Collates localeCompare key) {processed : List JsString}
    {degree : JsString → ℤ} {levels : List (List JsString)}
    (hsort : sortLevels localeCompare nodes processed degree = .ok levels) :
    ∀ level ∈ levels, ∃ list ⊆ nodes, level = list.map GraphNode.name ∧
      list.Pairwise (fun a b => rank key a ≤ rank key b) := by
  fun_induction sortLevels localeCompare nodes processed degree generalizing levels with
  | case1 processed degree hleft hnone | case2 processed degree hleft hsome error herror ih =>
    cases hsort
  | case3 processed degree hleft hsome rest hrest ih =>
    cases hsort
    apply List.forall_mem_cons.mpr ⟨⟨_, ?_, rfl, available_sorted h _ _⟩, ih hrest⟩
    exact fun node hnode => ((mem_available localeCompare).mp hnode).1
  | case4 processed degree hdone =>
    cases hsort
    exact List.forall_mem_nil _

/-- **The levels that are left**, of nodes listed in another order. -/
theorem sortLevels_listed (hperm : nodes.Perm other) (h : Collates localeCompare key)
    (hnames : (nodes.map GraphNode.name).Nodup)
    (hapart : ∀ a ∈ nodes, ∀ b ∈ nodes, key a.name = key b.name → a.name = b.name)
    {processed : List JsString} {degree : JsString → ℤ} {levels : List (List JsString)}
    (hsort : sortLevels localeCompare nodes processed degree = .ok levels) :
    sortLevels localeCompare other processed degree = .ok levels := by
  fun_induction sortLevels localeCompare nodes processed degree generalizing levels with
  | case1 processed degree hleft hnone | case2 processed degree hleft hsome error herror ih =>
    cases hsort
  | case3 processed degree hleft hsome rest hrest ih =>
    cases hsort
    have hother := ih hrest
    rw [available_listed hperm h hnames hapart, release_perm hperm] at hother
    rw [available_listed hperm h hnames hapart] at hsome ⊢
    rw [sortLevels, dif_pos (hperm.length_eq ▸ hleft), dif_neg hsome, hother]
  | case4 processed degree hdone =>
    cases hsort
    rw [sortLevels, dif_neg (hperm.length_eq ▸ hdone)]

theorem duplicates_perm {names others : List JsString} (hperm : names.Perm others) :
    (duplicates names).dedup.insertionSort (· ≤ ·) =
      (duplicates others).dedup.insertionSort (· ≤ ·) := by
  refine List.Perm.eq_of_pairwise' (List.pairwise_insertionSort _ _)
    (List.pairwise_insertionSort _ _) ?_
  refine (List.perm_insertionSort _ _).trans (.trans ?_ (List.perm_insertionSort _ _).symm)
  apply (List.perm_ext_iff_of_nodup (List.nodup_dedup _) (List.nodup_dedup _)).mpr
  intro name
  rw [List.mem_dedup, List.mem_dedup, mem_duplicates, mem_duplicates, hperm.count_eq]

/-- **The order the nodes are listed in does not matter**, where names that differ collate
apart: a sort of them in another order has the same levels, each the same list, or the same
error for repeated names, so that a cycle is found in both orders or in neither.  A level is
in the order of the ranks: the members of a group stand by their index. -/
theorem sort_listed_in_any_order (hperm : nodes.Perm other) (h : Collates localeCompare key)
    (hapart : ∀ a ∈ nodes, ∀ b ∈ nodes, key a.name = key b.name → a.name = b.name) :
    (∀ levels, sort localeCompare nodes = .ok levels ↔ sort localeCompare other = .ok levels) ∧
    (∀ names, sort localeCompare nodes = .error (.duplicateNodeName names) ↔
      sort localeCompare other = .error (.duplicateNodeName names)) ∧
    ∀ levels, sort localeCompare nodes = .ok levels → ∀ level ∈ levels, ∃ list ⊆ nodes,
      level = list.map GraphNode.name ∧ list.Pairwise (fun a b => rank key a ≤ rank key b) := by
  have hnames := hperm.map GraphNode.name
  have hother : ∀ a ∈ other, ∀ b ∈ other, key a.name = key b.name → a.name = b.name :=
    fun a ha b hb => hapart a (hperm.mem_iff.mpr ha) b (hperm.mem_iff.mpr hb)
  by_cases hnodup : (nodes.map GraphNode.name).Nodup
  · have hnodup' := hnames.nodup_iff.mp hnodup
    unfold sort
    rw [if_neg (not_not.mpr (duplicates_eq_nil.mpr hnodup)),
      if_neg (not_not.mpr (duplicates_eq_nil.mpr hnodup')), ← inDegree_perm hperm]
    have hstart := Degrees.start hnodup
    refine ⟨fun levels => ⟨sortLevels_listed hperm h hnodup hapart,
      sortLevels_listed hperm.symm h hnodup' hother⟩, ?_, fun _ => sortLevels_sorted h⟩
    intro names
    constructor
    · intro hsort
      obtain ⟨_, hcyclic, _⟩ := sortLevels_error localeCompare hnodup hstart hsort
      cases hcyclic
    · intro hsort
      obtain ⟨_, hcyclic, _⟩ := sortLevels_error localeCompare hnodup'
        (inDegree_perm hperm ▸ Degrees.start hnodup') hsort
      cases hcyclic
  · have hrepeated : duplicates (nodes.map GraphNode.name) ≠ [] := mt duplicates_eq_nil.mp hnodup
    have hrepeated' := mt duplicates_eq_nil.mp (mt hnames.nodup_iff.mpr hnodup)
    unfold sort
    rw [if_pos hrepeated, if_pos hrepeated', duplicates_perm hnames]
    refine ⟨fun _ => Iff.rfl, fun _ => Iff.rfl, ?_⟩
    intro levels hsort
    cases hsort

/-- Texts by their units. -/
def compareUnits (a b : JsString) : ℤ := if a < b then -1 else if b < a then 1 else 0

theorem compareUnits_collates : Collates compareUnits id := by
  constructor <;> intro a b <;> unfold compareUnits <;> grind

/-- Two jobs, one after the other. -/
theorem sort_listed_in_any_order_pair :
    let build : GraphNode := ⟨js "build", 0, [], none⟩
    let test : GraphNode := ⟨js "test", 0, [js "build"], none⟩
    sort compareUnits [build, test] = .ok [[js "build"], [js "test"]] ↔
      sort compareUnits [test, build] = .ok [[js "build"], [js "test"]] := by
  intro build test
  exact (sort_listed_in_any_order (List.Perm.swap _ _ []) compareUnits_collates
    (fun _ _ _ _ => id)).1 _

end Listed

end Swamp.Workflows
