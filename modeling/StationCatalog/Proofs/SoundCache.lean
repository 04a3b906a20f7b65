import StationCatalog.Proofs.Runs

/-!
The version cache over whole runs: whatever is stored and looked up in whatever order, every cached
range map is sound.
-/

namespace StationCatalog

open Lookup

/-- What is cached under a key: populated versions of the entity of that key over ranges that lie
within their validity, apart from each other and in order, with mere references for children. -/
structure CachedHistory.Sound (key : VersionKey) (h : CachedHistory) : Prop where
  held : h.versions.entries ≠ []
  nonempty : ∀ f ∈ h.versions.entries, f.1.isEmpty = false
  ascending : h.versions.entries.Pairwise fun a b => a.1.upper ≤ b.1.lower
  versions : ∀ f ∈ h.versions.entries, ∃ (id : EntityId key.kind) (validity : Validity)
    (data : EntityData key.kind), f.2 = ⟨key.kind, .populated id validity data⟩ ∧
      id.text = key.id ∧ (TimeRange.effective validity.start validity.stop).Encloses f.1 ∧
      data.IsBare

theorem CachedHistory.DrawnFrom.sound {S : Versions} {key : VersionKey} {h : CachedHistory}
    (hd : h.DrawnFrom S key) : h.Sound key where
  held := hd.held
  nonempty := hd.wellFormed.nonempty
  ascending := hd.wellFormed.ascending
  versions := by
    intro f hf
    obtain ⟨id, validity, data, hid, -, hval, within, -⟩ := hd.drawn f hf
    exact ⟨id, validity, data.demote, hval, hid, within, data.isBare_demote⟩

/-- A lookup that leaves the version cache as it is. -/
def Lookup.SparesVersions {α : Type} (x : Lookup α) : Prop :=
  ∀ s, (x.perform s).2.versionCache = s.versionCache

theorem Lookup.SparesVersions.bind {α β : Type} {x : Lookup α} {f : α → Lookup β}
    (hx : x.SparesVersions) (hf : ∀ a, (f a).SparesVersions) : (x >>= f).SparesVersions :=
  relates_bind (R := fun s s' => s'.versionCache = s.versionCache)
    (fun first second => second.trans first) hx hf

theorem Source.store_sparesVersions {k : Kind} (es : List (Entity k)) :
    (store k es).SparesVersions := by
  intro s
  simp only [store, requireWorking, perform_bind, perform_get]
  cases s.repository.failure <;> rfl

namespace Operation

theorem store_sparesVersions {op : Operation} (h : op.isStore = true) :
    op.lookup.SparesVersions := by
  have done : ∀ a : Answer, (pure a : Lookup Answer).SparesVersions := fun _ _ => rfl
  cases op with
  | store k es => exact (Source.store_sparesVersions es).bind fun _ => done _
  | storeNetwork =>
      refine Lookup.SparesVersions.bind ?_ fun _ => done _
      exact (Source.store_sparesVersions _).bind fun _ => (Source.store_sparesVersions _).bind
        fun _ => (Source.store_sparesVersions _).bind fun _ => (Source.store_sparesVersions _).bind
        fun _ => Source.store_sparesVersions _
  | _ => cases h

/-- One operation, unless it writes to the cache by hand, caches only populated versions. -/
theorem perform_drawn {op : Operation} (hw : op.isCacheWrite = false) {s : Stack}
    (hd : s.versionCache.DrawnFrom fun _ _ => True) :
    (op.perform s).2.versionCache.DrawnFrom fun _ _ => True := by
  cases hs : op.isStore with
  | true =>
      have spared : (op.perform s).2.versionCache = s.versionCache := store_sparesVersions hs s
      rw [spared]
      exact hd
  | false =>
      have any : s.repository.Within fun _ _ => True :=
        ⟨fun _ _ _ _ => trivial, fun _ _ _ _ _ => trivial⟩
      exact (Stack.drawn_of_steps (reaches hs hw s) any hd).2

/-- So do runs. -/
theorem run_drawn_any {ops : List Operation} (hops : ∀ op ∈ ops, op.isCacheWrite = false)
    {s : Stack} (hd : s.versionCache.DrawnFrom fun _ _ => True) :
    (run ops s).versionCache.DrawnFrom fun _ _ => True := by
  induction ops generalizing s with
  | nil => exact hd
  | cons op ops ih =>
      obtain ⟨hop, hrest⟩ := List.forall_mem_cons.1 hops
      exact ih hrest (perform_drawn hop hd)

/-- In every state that a run from a fresh stack reaches, each key is held once, and what is cached
under it is sound. -/
theorem run_sound {ops : List Operation} (hops : ∀ op ∈ ops, op.isCacheWrite = false)
    (window : TimeRange) :
    ((run ops (.fresh window)).versionCache.entries.map (·.1)).Nodup ∧
      ∀ e ∈ (run ops (.fresh window)).versionCache.entries, e.2.Sound e.1 := by
  have reached : (run ops (.fresh window)).versionCache.DrawnFrom fun _ _ => True :=
    run_drawn_any hops .empty
  exact ⟨reached.keys, fun e he => (reached.histories e he).sound⟩

/-- The sample network is stored, and its channel is cached with the response it carries. -/
theorem run_sound_network :
    let ops := [.storeNetwork, .findAt (.caching .cached) .channel [⟨"STA.BHZ", rfl⟩] .origin]
    (∀ op ∈ ops, isCacheWrite op = false) ∧ (run ops (.fresh .all)).versionCache.size = 2 ∧
      ((run ops (.fresh .all)).versionCache.entries.map (·.1)).Nodup ∧
        ∀ e ∈ (run ops (.fresh .all)).versionCache.entries, e.2.Sound e.1 :=
  ⟨by decide, rfl, run_sound (by decide) .all⟩

end Operation

end StationCatalog
