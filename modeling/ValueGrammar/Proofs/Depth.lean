import Mathlib.Data.ENat.Lattice
import Mathlib.Data.List.Chain
import Mathlib.Logic.Relation
import Mathlib.Order.CompletePartialOrder
import ValueGrammar.Command.Action
import ValueGrammar.Proofs.Reference

/-!
# How many passes an expansion takes

A text uses the definitions that it refers to. The depth of a text is the length of the longest
chain of definitions, each of which is used by the one before and the first by the text; it is
infinite if a chain comes back to a definition. One pass takes the first link off every chain, so
there are as many passes that change the text as it is deep, and then one that does not.

Headlines:
* **`depth_eq_iSup`**: a text is one deeper than the deepest definition that it uses.
* **`depth_eq_top_iff`**: a depth is infinite exactly if a definition below leads back to itself.
* **`depth_substitute`**: one pass lessens the depth by one.
* **`expand_congr`**: definitions that a text does not lead to have no influence.
* **`expand_iff_depth`**: an expansion succeeds exactly if more passes are allowed than the depth.
-/

namespace ValueGrammar.TypeTable

variable {t : TypeTable} {text definition : String}

/-! ## Chains of definitions -/

/-- Whether a text refers to a name that is defined by a given expression. -/
def Uses (t : TypeTable) (text definition : String) : Prop :=
  ∃ name, RefersTo text.toList name ∧ t.get? name = some definition

/-- **The depth of a text**: the length of the longest chain of definitions that begins with one
that the text uses, and goes on with one that the last one uses. -/
noncomputable def depth (t : TypeTable) (text : String) : ℕ∞ :=
  ⨆ (ds : List String) (_ : (text :: ds).IsChain t.Uses), (ds.length : ℕ∞)

theorem add_one_le_depth_of_uses (h : t.Uses text definition) :
    t.depth definition + 1 ≤ t.depth text := by
  rw [depth, ENat.biSup_add' ⟨[], List.isChain_singleton _⟩]
  refine iSup₂_le fun ds hds => ?_
  exact le_iSup₂_of_le (definition :: ds) (List.isChain_cons_cons.mpr ⟨h, hds⟩) (by simp)

/-- **A text is one deeper than the deepest definition that it uses.** -/
theorem depth_eq_iSup (t : TypeTable) (text : String) :
    t.depth text = ⨆ (d : String) (_ : t.Uses text d), (t.depth d + 1) := by
  refine le_antisymm (iSup₂_le fun ds hds => ?_) (iSup₂_le fun d hd => add_one_le_depth_of_uses hd)
  cases ds with
  | nil => exact bot_le
  | cons d ds =>
    obtain ⟨hd, hds⟩ := List.isChain_cons_cons.mp hds
    refine le_iSup₂_of_le d hd ?_
    have hlength : (ds.length : ℕ∞) ≤ t.depth d :=
      le_iSup₂_of_le (f := fun ds _ => ((ds : List String).length : ℕ∞)) ds hds le_rfl
    rw [List.length_cons, Nat.cast_add, Nat.cast_one]
    exact add_le_add hlength le_rfl

/-- A text that uses nothing has no depth. -/
theorem depth_eq_zero (h : ∀ d, ¬ t.Uses text d) : t.depth text = 0 := by
  rw [depth_eq_iSup]
  exact le_antisymm (iSup₂_le fun d hd => absurd hd (h d)) bot_le

/-! ## Cycles -/

theorem add_one_le_depth_of_transGen (h : Relation.TransGen t.Uses text definition) :
    t.depth definition + 1 ≤ t.depth text := by
  induction h with
  | single h => exact add_one_le_depth_of_uses h
  | tail _ h ih => exact ((add_one_le_depth_of_uses h).trans le_self_add).trans ih

/-- Every definition of a chain is among those of the table. -/
theorem subset_of_isChain {ds : List String} (h : (text :: ds).IsChain t.Uses) :
    ds ⊆ t.definitions.entries.map Prod.snd := by
  induction ds generalizing text with
  | nil => exact List.nil_subset _
  | cons d ds ih =>
    obtain ⟨⟨name, -, hd⟩, hds⟩ := List.isChain_cons_cons.mp h
    exact List.cons_subset.mpr
      ⟨List.mem_map_of_mem (f := Prod.snd) (Dictionary.mem_of_find? hd), ih hds⟩

/-- Without a cycle no definition comes twice in a chain, so a text is no deeper than the table has
definitions. -/
theorem depth_le_of_acyclic
    (h : ∀ d, Relation.TransGen t.Uses text d → ¬ Relation.TransGen t.Uses d d) :
    t.depth text ≤ (t.definitions.entries.map Prod.snd).length := by
  refine iSup₂_le fun ds hds => Nat.cast_le.mpr ?_
  have hchain : (text :: ds).IsChain (Relation.TransGen t.Uses) :=
    hds.imp fun _ _ => Relation.TransGen.single
  obtain ⟨hfirst, hpairs⟩ := List.pairwise_cons.mp (List.isChain_iff_pairwise.mp hchain)
  have hnodup : ds.Nodup := by
    refine List.Pairwise.imp_of_mem (fun {a b} ha _ hab => ?_) hpairs
    rintro rfl
    exact h a (hfirst a ha) hab
  exact (hnodup.subperm (subset_of_isChain hds)).length_le

/-- **A depth is infinite** exactly if a definition that the text leads to leads back to itself. -/
theorem depth_eq_top_iff : t.depth text = ⊤ ↔
    ∃ d, Relation.TransGen t.Uses text d ∧ Relation.TransGen t.Uses d d := by
  constructor
  · intro htop
    by_contra hcycle
    push Not at hcycle
    have hbound := depth_le_of_acyclic hcycle
    rw [htop, top_le_iff] at hbound
    exact ENat.natCast_ne_top _ hbound
  · rintro ⟨d, hd, hcycle⟩
    have hd_top : t.depth d = ⊤ := by
      by_contra hne
      exact lt_irrefl _ ((ENat.add_one_le_iff hne).mp (add_one_le_depth_of_transGen hcycle))
    have h := add_one_le_depth_of_transGen hd
    rwa [hd_top, top_add, top_le_iff] at h

/-! ## One pass -/

/-- A text uses after a pass what the definitions use that it used before. -/
theorem uses_substitute_iff :
    t.Uses (t.substitute text) definition ↔ ∃ d, t.Uses text d ∧ t.Uses d definition := by
  constructor
  · rintro ⟨name, href, hd⟩
    rcases refersTo_substitute_iff.mp href with ⟨-, hnone⟩ | ⟨used, d, hused, hud, hname⟩
    · rw [hnone] at hd
      cases hd
    · exact ⟨d, ⟨used, hused, hud⟩, name, hname, hd⟩
  · rintro ⟨d, ⟨used, hused, hud⟩, name, hname, hd⟩
    exact ⟨name, refersTo_substitute_iff.mpr (.inr ⟨used, d, hused, hud, hname⟩), hd⟩

theorem substitute_eq_self_iff_uses : t.substitute text = text ↔ ∀ d, ¬ t.Uses text d := by
  rw [substitute_eq_self_iff]
  constructor
  · rintro h d ⟨name, href, hd⟩
    rw [h name href] at hd
    cases hd
  · intro h name href
    exact Option.eq_none_iff_forall_ne_some.mpr fun d hd => h d ⟨name, href, hd⟩

/-- **One pass that changes a text lessens its depth by one.** -/
theorem depth_substitute (h : t.substitute text ≠ text) :
    t.depth text = t.depth (t.substitute text) + 1 := by
  have hused : ∃ d, t.Uses text d := by
    by_contra hnone
    exact h (substitute_eq_self_iff_uses.mpr (not_exists.mp hnone))
  have hafter : t.depth (t.substitute text) = ⨆ (d : String) (_ : t.Uses text d), t.depth d := by
    rw [depth_eq_iSup]
    refine le_antisymm (iSup₂_le fun d hd => ?_) (iSup₂_le fun d hd => ?_)
    · obtain ⟨used, hused, hud⟩ := uses_substitute_iff.mp hd
      exact le_iSup₂_of_le used hused (add_one_le_depth_of_uses hud)
    · rw [depth_eq_iSup t d]
      refine iSup₂_le fun d' hd' => ?_
      exact le_iSup₂_of_le (f := fun d' _ => t.depth d' + 1) d'
        (uses_substitute_iff.mpr ⟨d, hd, hd'⟩) le_rfl
  rw [hafter, depth_eq_iSup, ENat.biSup_add' hused]

/-! ## All passes -/

/-- Where the passes that are left are more than the depth, they settle after as many as it is. -/
theorem exists_settle_of_depth_lt :
    ∀ (left passes : Nat) (seen : Dictionary Unit) {text : String}, t.depth text < left →
      ∃ x, t.settle left passes seen text = some x ∧ (x.passes : ℕ∞) = passes + t.depth text
  | 0, _, _, _, h => absurd h (not_lt.mpr bot_le)
  | left + 1, passes, seen, text, h => by
    rw [settle]
    by_cases hsame : t.substitute text = text
    · rw [if_pos hsame, depth_eq_zero (substitute_eq_self_iff_uses.mp hsame), add_zero]
      exact ⟨_, rfl, rfl⟩
    · rw [depth_substitute hsame, Nat.cast_add, Nat.cast_one,
        ENat.add_lt_add_iff_right ENat.one_ne_top] at h
      obtain ⟨x, hx, hpasses⟩ := exists_settle_of_depth_lt left (passes + 1)
        ((t.undefinedIn text).foldl (fun d name => d.insert name ()) seen) h
      rw [if_neg hsame]
      refine ⟨x, hx, ?_⟩
      rw [hpasses, depth_substitute hsame, Nat.cast_add, Nat.cast_one, add_assoc, add_comm 1]

/-- Where they are not, they do not settle. -/
theorem settle_eq_none_of_le_depth :
    ∀ {left passes : Nat} {seen : Dictionary Unit} {text : String}, (left : ℕ∞) ≤ t.depth text →
      t.settle left passes seen text = none
  | 0, _, _, _, _ => rfl
  | left + 1, passes, seen, text, h => by
    rw [settle]
    by_cases hsame : t.substitute text = text
    · rw [depth_eq_zero (substitute_eq_self_iff_uses.mp hsame)] at h
      exact absurd h (by simp)
    · rw [depth_substitute hsame, Nat.cast_add, Nat.cast_one,
        ENat.add_le_add_iff_right ENat.one_ne_top] at h
      rw [if_neg hsame]
      exact settle_eq_none_of_le_depth h

/-! ## Definitions that do not matter -/

variable {u : TypeTable}

/-- Whether two tables have the same definitions of the names that a text refers to. -/
def AgreeOn (t u : TypeTable) (text : String) : Prop :=
  ∀ name, RefersTo text.toList name → u.get? name = t.get? name

theorem substitute_congr (h : t.AgreeOn u text) : u.substitute text = t.substitute text := by
  rw [substitute, substitute]
  refine congrArg String.ofList (List.flatMap_congr fun f hf => ?_)
  cases f with
  | other c => rfl
  | reference name => rw [replacement, replacement, h name (mem_fragmentsOf_iff.mp hf)]

theorem undefinedIn_congr (h : t.AgreeOn u text) : u.undefinedIn text = t.undefinedIn text := by
  rw [undefinedIn, undefinedIn]
  refine List.filterMap_congr fun f hf => ?_
  cases f with
  | other c => rfl
  | reference name => simp only [h name (mem_fragmentsOf_iff.mp hf)]

/-- Tables that agree on all that a text leads to still do so after a pass. -/
theorem agreeOn_substitute (h : ∀ d, Relation.ReflTransGen t.Uses text d → t.AgreeOn u d) :
    ∀ d, Relation.ReflTransGen t.Uses (t.substitute text) d → t.AgreeOn u d := by
  intro d hd
  rcases Relation.ReflTransGen.cases_head hd with rfl | ⟨d', hd', hrest⟩
  · intro name href
    rcases refersTo_substitute_iff.mp href with ⟨href, -⟩ | ⟨used, d, hused, hud, hname⟩
    · exact h text .refl name href
    · exact h d (.single ⟨used, hused, hud⟩) name hname
  · obtain ⟨used, hused, hud⟩ := uses_substitute_iff.mp hd'
    exact h d (.head hused (.head hud hrest))

theorem settle_congr :
    ∀ {left passes : Nat} {seen : Dictionary Unit} {text : String},
      (∀ d, Relation.ReflTransGen t.Uses text d → t.AgreeOn u d) →
      u.settle left passes seen text = t.settle left passes seen text
  | 0, _, _, _, _ => rfl
  | left + 1, passes, seen, text, h => by
    have htext := h text .refl
    rw [settle, settle, substitute_congr htext, undefinedIn_congr htext,
      settle_congr (agreeOn_substitute h)]

/-- **Definitions that a text does not lead to have no influence** on its expansion. -/
theorem expand_congr (hmax : u.maxPasses = t.maxPasses)
    (h : ∀ d, Relation.ReflTransGen t.Uses text d → t.AgreeOn u d) :
    u.expand text = t.expand text := by
  rw [expand, expand, hmax, settle_congr h]

/-! ## Expansion -/

theorem expand_of_depth_lt (h : t.depth text < t.maxPasses) :
    ∃ x, t.expand text = .ok x ∧ (x.passes : ℕ∞) = t.depth text := by
  obtain ⟨x, hx, hpasses⟩ := exists_settle_of_depth_lt t.maxPasses 0 .empty h
  refine ⟨x, by rw [expand, hx], ?_⟩
  rw [hpasses, Nat.cast_zero, zero_add]

theorem expand_of_le_depth (h : ¬ t.depth text < t.maxPasses) :
    t.expand text = .error ⟨text, t.maxPasses⟩ := by
  rw [expand, settle_eq_none_of_le_depth (not_lt.mp h)]

theorem outcome_expand {x : Expansion} (h : t.expand text = .ok x) :
    (Action.expand text t).outcome = (.ok x, LogLine.expanded text x.passes ::
      x.unresolved.map fun name => .unknownType name text) := by
  rw [Action.expand, h]
  rfl

/-- **An expansion succeeds exactly if the depth of the text is less than the number of passes that
the table allows**, and the pass that it reports is the depth. Else it fails with the text and that
number. A text is one deeper than the deepest definition that it uses, and infinitely deep exactly
if one that it leads to leads back to itself. Definitions that it does not lead to do not matter. -/
theorem expand_iff_depth (t : TypeTable) (e : String) :
    (t.depth e = ⨆ (d : String) (_ : t.Uses e d), (t.depth d + 1)) ∧
    (t.depth e = ⊤ ↔ ∃ d, Relation.TransGen t.Uses e d ∧ Relation.TransGen t.Uses d d) ∧
    ((∃ x, t.expand e = .ok x) ↔ t.depth e < t.maxPasses) ∧
    (¬ t.depth e < t.maxPasses → t.expand e = .error ⟨e, t.maxPasses⟩) ∧
    (∀ x, t.expand e = .ok x → ∃ n : ℕ, t.depth e = n ∧ x.passes = n ∧
      (Action.expand e t).outcome.2.head? = some (.expanded e n)) ∧
    ∀ u : TypeTable, u.maxPasses = t.maxPasses →
      (∀ d, Relation.ReflTransGen t.Uses e d → t.AgreeOn u d) → u.expand e = t.expand e := by
  have hlt {x : Expansion} (hx : t.expand e = .ok x) : t.depth e < t.maxPasses := by
    by_contra hle
    rw [expand_of_le_depth hle] at hx
    cases hx
  refine ⟨depth_eq_iSup t e, depth_eq_top_iff, ⟨fun ⟨x, hx⟩ => hlt hx, fun h => ?_⟩,
    expand_of_le_depth, fun x hx => ?_, fun u => expand_congr⟩
  · obtain ⟨x, hx, -⟩ := expand_of_depth_lt h
    exact ⟨x, hx⟩
  · obtain ⟨y, hy, hpasses⟩ := expand_of_depth_lt (hlt hx)
    cases hx.symm.trans hy
    exact ⟨x.passes, hpasses.symm, rfl, by rw [outcome_expand hx]; rfl⟩

/-- Two passes are allowed. A text that is one deep is expanded, and one that is two deep is not,
nor is one that leads back to itself. -/
theorem expand_iff_depth_limit :
    ∃ t : TypeTable, t.maxPasses = 2 ∧
      (t.expand "<b> <d>" = .ok ⟨"[c] <d>", ["d"], 1⟩ ∧ t.depth "<b> <d>" = 1) ∧
      (t.expand "<a>" = .error ⟨"<a>", 2⟩ ∧ ¬ t.depth "<a>" < 2) ∧
      (t.expand "<list>" = .error ⟨"<list>", 2⟩ ∧ t.depth "<list>" = ⊤) := by
  let t : TypeTable :=
    { ofList [("a", "<b>"), ("b", "c"), ("list", "<list> ,")] with maxPasses := 2 }
  have hb : t.expand "<b> <d>" = .ok ⟨"[c] <d>", ["d"], 1⟩ := by decide +kernel
  have ha : t.expand "<a>" = .error ⟨"<a>", 2⟩ := by decide +kernel
  have hlist : t.Uses "<list>" "<list> ," :=
    ⟨"list", mem_fragmentsOf_iff.mp (by decide +kernel), by decide +kernel⟩
  have hagain : t.Uses "<list> ," "<list> ," :=
    ⟨"list", mem_fragmentsOf_iff.mp (by decide +kernel), by decide +kernel⟩
  have htop : t.depth "<list>" = ⊤ :=
    (expand_iff_depth t "<list>").2.1.mpr ⟨_, .single hlist, .single hagain⟩
  have hdeep : ¬ t.depth "<a>" < 2 := by
    intro h
    obtain ⟨x, hx⟩ := (expand_iff_depth t "<a>").2.2.1.mpr h
    cases ha.symm.trans hx
  have hfails : t.expand "<list>" = .error ⟨"<list>", 2⟩ := by
    refine (expand_iff_depth t "<list>").2.2.2.1 ?_
    rw [htop]
    exact not_top_lt
  obtain ⟨n, hn, hpasses, -⟩ := (expand_iff_depth t "<b> <d>").2.2.2.2.1 _ hb
  refine ⟨t, rfl, ⟨hb, ?_⟩, ⟨ha, hdeep⟩, hfails, htop⟩
  rw [hn, ← hpasses]
  rfl

end ValueGrammar.TypeTable
