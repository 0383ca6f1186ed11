import Mathlib.Data.List.TakeWhile
import BuildProject.Proofs.Document.Definitions

/-!
# Groups of other configurations

A property group is for another configuration if its condition asks of a global property another
value than it has. Global properties are fixed, so such a group never counts, whatever has been
defined before it, and what it holds cannot be seen from outside: documents that differ there only
have the same properties (`properties_eq_of_alike`).

A property group inside such a group counts on its own. What may differ are therefore the nodes that
neither are property groups nor hold any; `Forest.outside` is what remains when they are left out.
-/

namespace BuildProject

open Markup Text

/-- No two global properties have one name in two spellings. -/
def GlobalProperties.Distinct (g : GlobalProperties) : Prop :=
  g.entries.Pairwise fun p q => sameIgnoringCase p.1 q.1 = false

namespace Element

/-- Whether the condition of an element asks of a global property another value than it has. -/
def asksOtherwise (g : GlobalProperties) (e : Element) : Bool :=
  match e.condition?.map ConditionSet.parse with
  | some (.ok conditions) =>
    conditions.conditions.any fun c => g.entries.any fun p =>
      sameIgnoringCase p.1 c.name && !sameIgnoringCase p.2 c.value
  | _ => false

/-- Whether an element is a property group for another configuration. -/
def isForOthers (g : GlobalProperties) (e : Element) : Bool :=
  e.name == propertyGroupElement && e.asksOtherwise g

end Element

namespace Forest

/-- Whether there is a property group at any depth. -/
def holdsPropertyGroup (f : Forest) : Bool :=
  f.elements.any (·.name == propertyGroupElement)

/-- The forest without identities, and without the nodes in groups for other configurations that
neither are property groups nor hold any; `inOthers` says whether the forest is what such a group
holds. -/
def outside (g : GlobalProperties) (inOthers : Bool) : Forest → Forest
  | nil => nil
  | element id tag content rest =>
    if inOthers && !(element id tag content nil).holdsPropertyGroup then outside g inOthers rest
    else
      element rootId tag (outside g (Element.isForOthers g ⟨id, tag, content⟩) content)
        (outside g inOthers rest)
  | leaf _ l rest =>
    if inOthers then outside g inOthers rest else leaf rootId l (outside g inOthers rest)

end Forest

/-- Two documents differ in the identities of their nodes only, and in what property groups for
other configurations hold; the nodes that differ there neither are property groups nor hold any. -/
def Document.Alike (g : GlobalProperties) (d d' : Document) : Prop :=
  d'.tree.content.outside g false = d.tree.content.outside g false

/-! ## Groups that never count -/

variable {g : GlobalProperties}

/-- A global property is found by every spelling of its name. -/
theorem Definitions.last?_of_mem {definitions : Definitions} {p : String × String}
    (h : definitions.Pairwise fun p q => sameIgnoringCase p.1 q.1 = false) (hp : p ∈ definitions)
    {name : String} (hname : sameIgnoringCase p.1 name = true) :
    definitions.last? name = some p.2 := by
  induction definitions using List.reverseRecOn with
  | nil => exact absurd hp List.not_mem_nil
  | append_singleton definitions q ih =>
    obtain ⟨hbefore, -, hlast⟩ := List.pairwise_append.mp h
    rw [last?_concat]
    rcases List.mem_append.mp hp with hp | hp
    · have hne : ¬ sameIgnoringCase q.1 name = true := by
        intro hq
        have hdistinct := hlast p hp q List.mem_cons_self
        rw [sameIgnoringCase_congr hq, hname] at hdistinct
        exact absurd hdistinct (by simp)
      rw [if_neg hne]
      exact ih hbefore hp
    · rw [List.mem_singleton.mp hp] at hname ⊢
      rw [if_pos hname]

/-- Blank text says no conditions. -/
theorem ConditionSet.isAllBlank_of_parse {text : String} {conditions : ConditionSet}
    (h : ConditionSet.parse text = .ok conditions) : isAllBlank text = false := by
  by_contra hblank
  rw [Bool.not_eq_false] at hblank
  have htrim : trim text.toList = [] := by
    have hstart : trimStart text.toList = [] :=
      List.dropWhile_eq_nil_iff.mpr (List.all_eq_true.mp hblank)
    rw [trim, hstart]
    rfl
  have hnone : parseConditions text = .error (.invalidText text) := by
    rw [parseConditions, htrim]
    rfl
  rw [parse, hnone] at h
  exact nomatch h

namespace Element

variable {e : Element}

theorem holdsUnder_congr {e' : Element} (h : e'.tag = e.tag) (values : String → Option String) :
    e'.holdsUnder values = e.holdsUnder values := by
  unfold holdsUnder condition? attribute?
  rw [h]

/-- **A condition that asks otherwise never holds**, whatever has been defined. -/
theorem holdsUnder_of_asksOtherwise (hg : g.Distinct) (h : e.asksOtherwise g = true)
    (counting : Definitions) : e.holdsUnder (counting.value? g) = false := by
  unfold asksOtherwise at h
  split at h
  · next conditions hparse =>
    obtain ⟨text, htext, hparse⟩ := Option.map_eq_some_iff.mp hparse
    obtain ⟨c, hc, h⟩ := List.any_eq_true.mp h
    obtain ⟨p, hp, h⟩ := List.any_eq_true.mp h
    rw [Bool.and_eq_true, Bool.not_eq_true'] at h
    have hvalue : counting.value? g c.name = some p.2 := by
      rw [Definitions.value?, Definitions.last?_of_mem hg hp h.1]
      rfl
    unfold holdsUnder
    rw [htext]
    dsimp only
    rw [ConditionSet.isAllBlank_of_parse hparse, hparse, Bool.false_or]
    refine List.all_eq_false.mpr ⟨c, hc, ?_⟩
    rw [hvalue, Option.getD_some, h.2]
    exact Bool.false_ne_true
  · exact absurd h Bool.false_ne_true

theorem holdsUnder_of_isForOthers (hg : g.Distinct) (h : e.isForOthers g = true)
    (counting : Definitions) : e.holdsUnder (counting.value? g) = false :=
  holdsUnder_of_asksOtherwise hg (Bool.and_eq_true_iff.mp h).2 counting

end Element

/-! ## What is seen from outside -/

namespace Forest

theorem leaves_outside (f : Forest) : (f.outside g false).leaves = f.leaves := by
  induction f with
  | nil => rfl
  | element id tag content rest _ ih => exact ih
  | leaf id l rest ih => exact congrArg (l :: ·) ih

end Forest

namespace Element

/-- What remains of an element, seen from outside. -/
def outside (g : GlobalProperties) (e : Element) : Element :=
  ⟨rootId, e.tag, e.content.outside g (e.isForOthers g)⟩

variable {e : Element}

theorem holdsUnder_outside (e : Element) (values : String → Option String) :
    (e.outside g).holdsUnder values = e.holdsUnder values :=
  holdsUnder_congr rfl values

theorem content_outside (h : ¬ e.isForOthers g = true) :
    (e.outside g).content = e.content.outside g false := by
  rw [outside, Bool.eq_false_iff.mpr h]

end Element

theorem Forest.children_outside (f : Forest) :
    (f.outside g false).children = f.children.map (Element.outside g) := by
  induction f with
  | nil => rfl
  | element id tag content rest _ ih => exact congrArg (_ :: ·) ih
  | leaf id l rest ih => exact ih

namespace Definitions

/-- A property defines what it does seen from outside. -/
theorem afterProperty_outside (hg : g.Distinct) (counting : Definitions) (property : Element) :
    counting.afterProperty g (property.outside g) = counting.afterProperty g property := by
  unfold afterProperty
  rw [Element.holdsUnder_outside]
  by_cases hothers : property.isForOthers g = true
  · -- a property group inside a group is a property as well, but none that counts
    rw [Element.holdsUnder_of_isForOthers hg hothers, if_neg Bool.false_ne_true,
      if_neg Bool.false_ne_true]
  · have htext : (property.outside g).text = property.text := by
      rw [Element.text, Forest.text, Element.content_outside hothers, Forest.leaves_outside]
      rfl
    rw [htext]
    rfl

/-- A group defines what it does seen from outside. -/
theorem afterGroup_outside (hg : g.Distinct) (counting : Definitions) (group : Element) :
    counting.afterGroup g (group.outside g) = counting.afterGroup g group := by
  unfold afterGroup
  rw [Element.holdsUnder_outside]
  by_cases hothers : group.isForOthers g = true
  · rw [Element.holdsUnder_of_isForOthers hg hothers, if_neg Bool.false_ne_true,
      if_neg Bool.false_ne_true]
  · have hchildren : (group.outside g).children = group.children.map (Element.outside g) := by
      rw [Element.children, Element.content_outside hothers, Forest.children_outside]
      rfl
    rw [hchildren, List.foldl_map]
    simp only [afterProperty_outside hg]

/-- The definitions that count behind the property groups of a forest. -/
def afterForest (g : GlobalProperties) (counting : Definitions) (f : Forest) : Definitions :=
  (f.elements.filter (·.name == propertyGroupElement)).foldl (afterGroup g) counting

theorem afterForest_element (counting : Definitions) (id : NodeId) (tag : Tag)
    (content rest : Forest) : counting.afterForest g (.element id tag content rest) =
      ((if tag.name == propertyGroupElement then counting.afterGroup g ⟨id, tag, content⟩
        else counting).afterForest g content).afterForest g rest := by
  unfold afterForest
  rw [Forest.elements]
  by_cases hname : (tag.name == propertyGroupElement) = true
  · rw [if_pos hname, List.filter_cons_of_pos (by exact hname), List.foldl_cons, List.filter_append,
      List.foldl_append]
  · rw [if_neg hname, List.filter_cons_of_neg (by exact hname), List.filter_append,
      List.foldl_append]

/-- A forest without property groups defines nothing. -/
theorem afterForest_of_not_holdsPropertyGroup (counting : Definitions) {f : Forest}
    (h : f.holdsPropertyGroup = false) : counting.afterForest g f = counting := by
  unfold afterForest
  rw [List.filter_eq_nil_iff.mpr (List.any_eq_false.mp h)]
  rfl

/-- **The property groups of a forest define what they do seen from outside.** -/
theorem afterForest_outside (hg : g.Distinct) (f : Forest) (inOthers : Bool)
    (counting : Definitions) :
    counting.afterForest g (f.outside g inOthers) = counting.afterForest g f := by
  induction f generalizing inOthers counting with
  | nil => rfl
  | leaf id l rest ih =>
    rw [Forest.outside]
    split
    · exact ih inOthers counting
    · exact ih inOthers counting
  | element id tag content rest ihContent ihRest =>
    rw [Forest.outside]
    split
    · next hleftOut =>
      have hnone : (Forest.element id tag content .nil).holdsPropertyGroup = false := by
        rw [Bool.and_eq_true, Bool.not_eq_true'] at hleftOut
        exact hleftOut.2
      have hdefines := afterForest_of_not_holdsPropertyGroup (g := g) counting hnone
      rw [afterForest_element] at hdefines ⊢
      rw [ihRest]
      exact congrArg (afterForest g · rest) hdefines.symm
    · have hgroup := afterGroup_outside hg counting ⟨id, tag, content⟩
      rw [Element.outside] at hgroup
      rw [afterForest_element, afterForest_element, ihContent, ihRest, ← hgroup]

end Definitions

/-- The definitions of alike documents are the same. -/
theorem Document.Alike.definitions_eq {d d' : Document} (h : d.Alike g d') (hg : g.Distinct) :
    d'.definitions g = d.definitions g := by
  have hdefinitions (d : Document) :
      d.definitions g = Definitions.afterForest g [] (d.tree.content.outside g false) :=
    (Definitions.afterForest_outside hg d.tree.content false []).symm
  rw [hdefinitions, hdefinitions, h]

namespace Evaluation

/-- **Other configurations do not leak in**: documents that differ only in what property groups for
other configurations hold have the same properties, in the same order, and the same value of every
name. -/
theorem properties_eq_of_alike {d d' : Document} (hg : g.Distinct) (h : d.Alike g d') :
    (evaluate d' g).properties = (evaluate d g).properties ∧
      ∀ name, (evaluate d' g).property? name = (evaluate d g).property? name := by
  have htable : (evaluate d' g).table = (evaluate d g).table := by
    rw [table_evaluate, table_evaluate, h.definitions_eq hg]
  unfold properties property?
  rw [htable]
  exact ⟨rfl, fun name => rfl⟩

/-- A document in which a property group for another configuration holds the given nodes, behind a
group that tries to set the configuration. -/
def withOthers (others : Forest) : Document :=
  let configuration := Forest.element 2 ⟨"configuration", []⟩ (.leaf 3 (.text "Debug") .nil) .nil
  let debug : Tag := ⟨"PropertyGroup", [⟨"Condition", " '$(CONFIGURATION)' == 'debug' "⟩]⟩
  { Document.empty ⟨0⟩ with
    tree := ⟨Document.emptyContent.tree.tag,
      .element 1 ⟨"PropertyGroup", []⟩ configuration (.element 4 debug others .nil), 20⟩ }

/-- What stands in the group makes no difference. A group inside it stays, and counts. -/
theorem properties_eq_of_alike_nested :
    let g := GlobalProperties.ofList [("Configuration", "Release"), ("Platform", "AnyCPU")]
    let inner (id : NodeId) (rest : Forest) := Forest.element id ⟨"PropertyGroup", []⟩
      (.element (id + 1) ⟨"Name", []⟩ (.leaf (id + 2) (.text "inner") .nil) .nil) rest
    let d := withOthers (.element 5 ⟨"Path", []⟩ (.leaf 6 (.text "bin") .nil) (inner 7 .nil))
    let d' := withOthers (inner 5 (.leaf 8 (.comment "none") .nil))
    g.Distinct ∧ d.Alike g d' ∧ (evaluate d' g).properties = (evaluate d g).properties ∧
      (evaluate d' g).property? "path" = (evaluate d g).property? "path" ∧
      (evaluate d g).property? "path" = none ∧ (evaluate d g).property? "name" = some "inner" := by
  intro g inner d d'
  have hg : g.Distinct := by
    unfold GlobalProperties.Distinct
    decide +kernel
  have halike : d.Alike g d' := by
    unfold Document.Alike
    decide +kernel
  obtain ⟨hproperties, hvalues⟩ := properties_eq_of_alike hg halike
  exact ⟨hg, halike, hproperties, hvalues "path", by decide +kernel, by decide +kernel⟩

end Evaluation

end BuildProject
