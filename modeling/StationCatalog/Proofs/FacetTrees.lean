import Mathlib.Data.String.Basic
import StationCatalog.Faceting
import StationCatalog.Proofs.Ascending

/-!
Faceting definitions as trees. A definition that is built up from leaves, a child at a time, keeps
its children ascending by key; so it is determined by what it says and by what stands under each
key, whatever the order in which the children were added.
-/

namespace StationCatalog

namespace Facets

variable {key : String} {d : Faceting} {fs fs' : Facets}

/-- The order of children, told by their keys. -/
def compareKeys : String × Faceting → String × Faceting → Ordering := compareOn Prod.fst

instance : Std.TransCmp compareKeys := inferInstanceAs (Std.TransCmp (compareOn Prod.fst))

/-- Ascending by key, so that no key comes twice. -/
def Ascending (fs : Facets) : Prop := fs.toList.Pairwise (compareKeys · · = .lt)

theorem toList_insert (key : String) (d : Faceting) (fs : Facets) :
    (fs.insert key d).toList = Sorted.insert compareKeys (key, d) fs.toList := by
  induction fs using toList.induct with
  | case1 => rfl
  | case2 key' d' rest ih =>
      simp only [insert, toList, Sorted.insert]
      rcases lt_trichotomy key key' with before | rfl | after
      · have lt : compareKeys (key, d) (key', d') = .lt := compare_lt_iff_lt.2 before
        rw [if_neg before.ne, if_pos before, lt]
        rfl
      · have eq : compareKeys (key, d) (key, d') = .eq := compare_eq_iff_eq.2 rfl
        rw [if_pos rfl, eq]
        rfl
      · have gt : compareKeys (key, d) (key', d') = .gt := compare_gt_iff_gt.2 after
        rw [if_neg after.ne', if_neg after.not_gt, gt]
        exact congrArg ((key', d') :: ·) ih

theorem Ascending.insert (h : fs.Ascending) (key : String) (d : Faceting) :
    (fs.insert key d).Ascending := by
  rw [Ascending, toList_insert]
  exact Sorted.pairwise_insert (key, d) h

/-- Ascending children are looked up where they are listed. -/
theorem Ascending.find?_eq_some (h : fs.Ascending) :
    fs.find? key = some d ↔ (key, d) ∈ fs.toList := by
  induction fs using toList.induct with
  | case1 => exact iff_of_false nofun List.not_mem_nil
  | case2 key' d' rest ih =>
      obtain ⟨first, others⟩ := List.pairwise_cons.1 h
      rw [find?, toList, List.mem_cons, Prod.mk.injEq]
      by_cases same : key' = key
      · subst same
        have once : (key', d) ∉ rest.toList := by
          intro again
          have self : compareKeys (key', d') (key', d) = .eq := compare_eq_iff_eq.2 rfl
          rw [first _ again] at self
          cases self
        rw [if_pos rfl, Option.some.injEq, or_iff_left once, and_iff_right rfl]
        exact eq_comm
      · rw [if_neg same, ih others, or_iff_right fun head => same head.1.symm]

theorem toList_inj (h : fs.toList = fs'.toList) : fs = fs' := by
  induction fs using toList.induct generalizing fs' with
  | case1 =>
      cases fs' with
      | nil => rfl
      | cons => cases h
  | case2 key d rest ih =>
      cases fs' with
      | nil => cases h
      | cons key' d' rest' =>
          obtain ⟨head, tail⟩ := List.cons.inj h
          cases head
          rw [ih tail]

/-- Ascending children are determined by what stands under each key. -/
theorem Ascending.ext (h : fs.Ascending) (h' : fs'.Ascending)
    (same : ∀ key, fs.find? key = fs'.find? key) : fs = fs' := by
  refine toList_inj (Sorted.eq_of_mem_iff h h' ?_)
  rintro ⟨key, d⟩
  rw [← h.find?_eq_some, ← h'.find?_eq_some, same]

end Facets

namespace Faceting

variable {f f' d : Faceting} {key : String}

/-- Built up from leaves, a child at a time. -/
inductive Built : Faceting → Prop
  | leaf (kind : Kind) (populated : Bool) : Built (.leaf kind populated)
  | withFacet {f d : Faceting} (key : String) (parent : Built f) (child : Built d) :
    Built (f.withFacet key d)

/-- Equal as trees: of one kind, alike populated or not, and with equal children under the same
keys. -/
inductive Same : Faceting → Faceting → Prop
  | intro {f f' : Faceting} (kind : f.kind = f'.kind) (populated : f.populated = f'.populated)
    (keys : ∀ key, (f.facet? key).isSome = (f'.facet? key).isSome)
    (children : ∀ key d d', f.facet? key = some d → f'.facet? key = some d' → Same d d') :
    Same f f'

theorem Built.ascending (h : f.Built) : f.facets.Ascending := by
  induction h with
  | leaf => exact .nil
  | withFacet key _ _ ih => exact ih.insert key _

theorem Built.child (h : f.Built) (found : f.facet? key = some d) : d.Built := by
  induction h with
  | leaf => cases found
  | withFacet key' _ child ih =>
      rw [facet?_withFacet] at found
      split at found
      · exact Option.some.inj found ▸ child
      · exact ih found

theorem Built.same_self (h : f.Built) : f.Same f := by
  induction h with
  | leaf => exact .intro rfl rfl (fun _ => rfl) nofun
  | withFacet key' _ _ ihParent ihChild =>
      obtain ⟨-, -, -, children⟩ := ihParent
      refine .intro rfl rfl (fun _ => rfl) fun key d d' found found' => ?_
      obtain rfl := Option.some.inj (found.symm.trans found')
      rw [facet?_withFacet] at found
      split at found
      · exact Option.some.inj found ▸ ihChild
      · exact children key d d found found

theorem Same.eq (h : f.Same f') (hf : f.Built) (hf' : f'.Built) : f = f' := by
  induction h with
  | @intro f f' kind populated keys _ ih =>
      have facets : f.facets = f'.facets := by
        refine hf.ascending.ext hf'.ascending fun key => ?_
        have both : (f.facet? key).isSome = (f'.facet? key).isSome := keys key
        change f.facet? key = f'.facet? key
        cases found : f.facet? key with
        | none =>
            rw [found] at both
            exact (Option.not_isSome_iff_eq_none.1 (Bool.eq_false_iff.1 both.symm)).symm
        | some d =>
            rw [found] at both
            obtain ⟨d', found'⟩ := Option.isSome_iff_exists.1 both.symm
            rw [found', ih key d d' found found' (hf.child found) (hf'.child found')]
      cases f
      cases f'
      cases kind
      cases populated
      cases facets
      rfl

/-- Definitions that are built up are equal just when they are equal as trees. -/
theorem Built.eq_iff (hf : f.Built) (hf' : f'.Built) : f = f' ↔ f.Same f' :=
  ⟨fun same => same ▸ hf.same_self, fun same => same.eq hf hf'⟩

end Faceting

end StationCatalog
