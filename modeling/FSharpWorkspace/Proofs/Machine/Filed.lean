import FSharpWorkspace.Machine
import FSharpWorkspace.Proofs.Workspace.Told
import Mathlib.Logic.Relation
/-!
# Results are filed under their files

On a disk a spelling may name another place when it is read again, so nothing is known of the
identities that come into the cache. Still every value is that of the file whose entry holds it
(`Cache.Filed`). For a value is made for the identity of the entry that was claimed, and an entry
keeps its identity as long as it is computed.

Questions keep to this, and change neither the index nor the working directory
(`Workspace.Inquired`). So it is true of every workspace that can be reached
(`Machine.Reachable.filed`).
-/

set_option autoImplicit false

namespace FSharpWorkspace

/-! ## Filed caches -/

/-- The map holds one entry for each place, whatever is in progress belongs to the only thread, and
every value is that of the file whose entry holds it. -/
structure Cache.Filed (c : Cache Resolution) : Prop where
  lone : c.Lone
  owned : c.Owned 0
  named : ∀ (s : Serial) e r, c.entries[s]? = some e → e.state = .done r → r.id = e.id

namespace Cache.Filed

variable {c c' : Cache Resolution} {l : Location} {s : Serial} {id : Identity}

theorem empty : (Cache.empty : Cache Resolution).Filed where
  lone l s e t f h := by simp [Cache.empty, Cache.Holds] at h
  owned s e owner marks h := by simp [Cache.empty] at h
  named s e r h := by simp [Cache.empty] at h

theorem claim (hc : c.Filed) (h : c.Claims 0 l s id c') : c'.Filed where
  lone := h.lone hc.lone
  owned := h.owned hc.owned
  named t e r he hr := by
    by_cases ht : t = s
    · subst ht
      obtain rfl := Option.some.inj (h.entry.symm.trans he)
      cases hr
    · exact hc.named t e r ((h.others t ht).symm.trans he) hr

/-- An entry may end in any way, but its value is that of its file. -/
theorem setState (hc : c.Filed) (s : Serial) {state : EntryState Resolution}
    (hstate : ∀ owner marks, state ≠ .inProgress owner marks)
    (hvalue : ∀ e r, c.entries[s]? = some e → state = .done r → r.id = e.id) :
    (c.setState s state).Filed where
  lone := hc.lone.setState s state
  owned t e owner marks he hs := by
    obtain ⟨f, hf, -, h | ⟨-, h⟩⟩ := Cache.getElem?_setState_cases he
    · exact hc.owned t f owner marks hf (h ▸ hs)
    · exact absurd (h.symm.trans hs) (hstate owner marks)
  named t e r he hr := by
    obtain ⟨f, hf, hid, h | ⟨rfl, h⟩⟩ := Cache.getElem?_setState_cases he
    · exact hid ▸ hc.named t f r hf (h ▸ hr)
    · exact hid ▸ hvalue f r hf (h ▸ hr)

theorem finish (hc : c.Filed) {e : Entry Resolution} (he : c.entries[s]? = some e) {r : Resolution}
    (hr : r.id = e.id) (stale : Resolution → Location → Bool) : (c.finish s r stale).Filed := by
  have hset : (c.setState s (Cache.handedIn stale r (c.stateAt s))).Filed := by
    refine hc.setState s (Cache.handedIn_ne_inProgress stale r _) fun f v hf hv => ?_
    obtain rfl := Option.some.inj (he.symm.trans hf)
    rcases Cache.handedIn_cases stale r (c.stateAt s) with hd | hd
    · cases hd.symm.trans hv
      exact hr
    · cases hd.symm.trans hv
  exact ⟨hset.lone, hset.owned, hset.named⟩

theorem abandon (hc : c.Filed) (s : Serial) : (c.abandon s).Filed := by
  have hset : (c.setState s .uncomputed).Filed := hc.setState s nofun nofun
  exact ⟨hset.lone, hset.owned, hset.named⟩

theorem cascade (hc : c.Filed) (l : Location) : (c.cascade Resolution.dependsOn l).Filed := by
  obtain ⟨xs, hxs, -⟩ := Cache.cascade_eq_foldl Resolution.dependsOn hc.lone l
  rw [hxs]
  have hevolves := Cache.foldl_invalidate_evolves (fun _ : Resolution => False) c xs
  refine ⟨hc.lone.foldl_invalidate xs, hc.owned.evolves hevolves, fun s e r he hr => ?_⟩
  -- nothing is made by an invalidation
  obtain ⟨f, hf, hfr⟩ := (hevolves.made s e r he hr).resolve_right id
  obtain ⟨e', he', hid, -⟩ := hevolves.entry s f hf
  obtain rfl := Option.some.inj (he'.symm.trans he)
  exact hid ▸ hc.named s f r hf hfr

/-- The value found for a file is the value of that file. -/
theorem place (hc : c.Filed) {r : Resolution} (h : c.peek l = some r) : r.id.location = l := by
  obtain ⟨s, e, he, hr⟩ := (Cache.peek_eq_some hc.lone l r).mp h
  rw [hc.named s e r he.1 hr]
  exact he.2.2

end Cache.Filed

/-! ## What is resolved -/

section

variable {σ α β : Type}

def Act.Yields (P : α → Prop) (x : Act σ α) : Prop := ∀ w a w', x w = .ok a w' → P a

theorem Act.Yields.bind {P : β → Prop} {x : Act σ α} {f : α → Act σ β} (h : ∀ a, (f a).Yields P) :
    (x >>= f).Yields P := by
  intro w b w' hb
  obtain ⟨a, w₁, -, hf⟩ := Act.bind_eq_ok.mp hb
  exact h a w₁ b w' hf

theorem Act.Yields.pure {P : α → Prop} {a : α} (h : P a) : (Pure.pure a : Act σ α).Yields P := by
  intro w b w' hb
  obtain ⟨rfl, -⟩ := Act.pure_eq_ok.mp hb
  exact h

variable {env : Surroundings σ} {id : Identity}
  {dependency : Identity → Act σ (Except (List Identity) Resolution)}

/-- What an identity resolves to bears that identity. -/
theorem resolveOne_yields : (Act.resolveOne env id dependency).Yields (·.id = id) := by
  unfold Act.resolveOne
  split
  · refine .bind fun outside => ?_
    dsimp only
    split
    · exact .bind fun _ => .pure rfl
    · exact .bind fun _ => .pure rfl
  · refine .bind fun report => .bind fun loadTime => ?_
    split
    · exact .bind fun _ => .pure rfl
    · exact .bind fun _ => .bind fun _ => .bind fun _ => .bind fun _ => .bind fun _ => .pure rfl
  · exact .bind fun _ => .pure rfl

variable {k : Conduct σ} {w : Workspace σ}

/-- Resolving keeps to what its parts keep to: cracking, stamping, and resolving the references. -/
theorem Conduct.Composes.resolveOne (hk : k.Composes) (hcrack : ∀ l w, (env.crack l).Keeps k w)
    (hstamp : ∀ w, Act.newStamp.Keeps k w) (hdep : ∀ dep w, (dependency dep).Keeps k w) :
    (Act.resolveOne env id dependency).Keeps k w := by
  unfold Act.resolveOne
  split
  · refine hk.bind_read (·.outside) (fun _ => rfl) fun _ => ?_
    dsimp only
    split
    · exact hk.bind (hstamp w) fun _ _ _ _ => hk.pure _
    · exact hk.bind (hstamp w) fun _ _ _ _ => hk.pure _
  · unfold Act.resolveProject
    refine hk.bind (hcrack id.location w) fun report w₁ _ _ => ?_
    refine hk.bind (hk.read _ fun _ => rfl) fun loadTime w₂ _ _ => ?_
    split
    · exact hk.bind (hstamp w₂) fun _ _ _ _ => hk.pure _
    · refine hk.bind (hk.foldlM (hk.link (fun _ _ _ _ => trivial) fun dep w _ => hdep dep w) _ _)
        fun linked w₃ _ _ => ?_
      refine hk.bind (hk.mapM (hk.placeFrom env id.dir) _) fun artifacts w₄ _ _ => ?_
      refine hk.bind (hk.mapM (hk.placeFrom env id.dir) _) fun sources w₅ _ _ => ?_
      refine hk.bind ?_ fun target w₆ _ _ => hk.bind (hstamp w₆) fun _ _ _ _ => hk.pure _
      cases report.target with
      | none => exact hk.pure _
      | some p => exact hk.map some (hk.placeFrom env id.dir p w₅)
  · exact hk.bind (hstamp w) fun _ _ _ _ => hk.pure _

end

/-! ## Questions -/

/-- What a question makes of a workspace: the cache stays filed, its entries keep their identities,
and the index and the working directory are the same. Without a cracker nothing outside changes. -/
structure Workspace.Inquired (w w' : Workspace Machine) : Prop where
  filed : w.cache.Filed → w'.cache.Filed
  entries : ∀ (s : Serial) e, w.cache.entries[s]? = some e → ∃ e',
    w'.cache.entries[s]? = some e' ∧ e'.id = e.id
  index : w'.index = w.index
  directory : w'.outside.directory = w.outside.directory
  outside : w.outside.cracker = none → w'.outside = w.outside

section

variable {w w' w'' : Workspace Machine} {s : Serial} {id : Identity}

theorem Workspace.Inquired.refl (w : Workspace Machine) : w.Inquired w :=
  ⟨fun h => h, fun _ e he => ⟨e, he, rfl⟩, rfl, rfl, fun _ => rfl⟩

theorem Workspace.Inquired.trans (h : w.Inquired w') (h' : w'.Inquired w'') : w.Inquired w'' where
  filed hw := h'.filed (h.filed hw)
  entries s e he := by
    obtain ⟨e', he', hid⟩ := h.entries s e he
    obtain ⟨e'', he'', hid'⟩ := h'.entries s e' he'
    exact ⟨e'', he'', hid'.trans hid⟩
  index := h'.index.trans h.index
  directory := h'.directory.trans h.directory
  outside hnone :=
    (h'.outside ((congrArg Machine.cracker (h.outside hnone)).trans hnone)).trans (h.outside hnone)

/-- Only the cache changes. -/
theorem Workspace.Inquired.of_cache {c : Cache Resolution} (hfiled : w.cache.Filed → c.Filed)
    (hentries : ∀ (s : Serial) e, w.cache.entries[s]? = some e →
      ∃ e', c.entries[s]? = some e' ∧ e'.id = e.id) :
    w.Inquired { w with cache := c } :=
  ⟨hfiled, hentries, rfl, rfl, fun _ => rfl⟩

theorem Cache.getElem?_setState_some {c : Cache Resolution} {state : EntryState Resolution}
    {t : Serial} {e : Entry Resolution} (he : c.entries[t]? = some e) (s : Serial) :
    ∃ e', (c.setState s state).entries[t]? = some e' ∧ e'.id = e.id := by
  by_cases ht : s = t
  · subst ht
    exact ⟨{ e with state }, by rw [Cache.getElem?_setState_eq, he]; rfl, rfl⟩
  · exact ⟨e, (Cache.getElem?_setState_ne c state ht).trans he, rfl⟩

/-- Asking, from a filed cache. -/
def inquiring : Conduct Machine where
  starts w := w.cache.Filed
  goes := Workspace.Inquired
  stops w _ w' := w.Inquired w'

theorem inquiring_composes : inquiring.Composes where
  refl := .refl
  again _ _ hw h := h.filed hw
  trans _ _ _ _ := .trans
  late _ _ _ _ _ := .trans

theorem newStamp_inquiring : (Act.newStamp (σ := Machine)).Keeps inquiring w where
  goes _ a w' h := by
    cases h
    exact ⟨fun h => h, fun _ e he => ⟨e, he, rfl⟩, rfl, rfl, fun _ => rfl⟩
  stops _ e w' h := by cases h

theorem throw_inquiring {α : Type} (e : Interrupt) :
    (throw e : Act Machine α).Keeps inquiring w where
  goes _ a w' h := by cases h
  stops _ e w' h := by
    cases h
    exact .refl w

/-- A cracker may write to the disk, and does nothing else. -/
theorem Machine.crack_inquiring (l : Location) :
    (Machine.surroundings.crack l).Keeps inquiring w where
  goes _ a w' h := by
    cases h
    refine ⟨fun h => h, fun _ e he => ⟨e, he, rfl⟩, rfl, ?_, fun hnone => ?_⟩
    · show (w.outside.crack l).2.directory = _
      unfold Machine.crack
      split
      · rfl
      · split <;> rfl
    · show (w.outside.crack l).2 = _
      unfold Machine.crack
      rw [hnone]
  stops _ e w' h := by cases h

/-- A request is answered, and whoever is to compute an entry gets its identity. -/
theorem request_inquired (hw : w.cache.Filed) (id : Identity) :
    ∃ answer w', Act.request id w = .ok answer w' ∧ w.Inquired w' ∧
      ∀ s id', answer = .claimed s id' → ∃ e, w'.cache.entries[s]? = some e ∧ e.id = id' := by
  rw [Act.request_eq]
  rcases Cache.start_cases hw.lone hw.owned id
    with ⟨v, hs, -⟩ | ⟨s, e, hs, -, -⟩ | ⟨s, id', c, hs, hc, -⟩
  · rw [hs]
    exact ⟨_, w, rfl, .refl w, nofun⟩
  · rw [hs]
    exact ⟨_, w, rfl, .refl w, nofun⟩
  · rw [hs]
    refine ⟨_, _, rfl, .of_cache (fun hw => hw.claim hc) fun t e he => ?_, fun t id'' h => ?_⟩
    · by_cases ht : t = s
      · subst ht
        obtain rfl := hc.before_eq he
        exact ⟨_, hc.entry, rfl⟩
      · exact ⟨e, (hc.others t ht).trans he, rfl⟩
    · cases h
      exact ⟨_, hc.entry, rfl⟩

theorem request_inquiring (id : Identity) : (Act.request id).Keeps inquiring w where
  goes hw a w' h := by
    obtain ⟨answer, w₁, hreq, hgoes, -⟩ := request_inquired hw id
    cases h.symm.trans hreq
    exact hgoes
  stops _ e w' h := by cases h

/-- What is computed for an entry arrives there. -/
theorem computing_inquiring {supplier : Act Machine Resolution} (hx : supplier.Keeps inquiring w)
    (hyields : supplier.Yields (·.id = id)) (hs : ∃ e, w.cache.entries[s]? = some e ∧ e.id = id) :
    (Act.computing s supplier).Keeps inquiring w where
  goes hw r w' h := by
    obtain ⟨e, he, hid⟩ := hs
    unfold Act.computing at h
    cases hr : supplier w with
    | error e w₁ =>
        rw [hr] at h
        cases h
    | ok r₁ w₁ =>
        rw [hr] at h
        cases h
        have hgoes := hx.goes hw r w₁ hr
        obtain ⟨e', he', hid'⟩ := hgoes.entries s e he
        refine hgoes.trans (.of_cache (fun hw₁ => hw₁.finish he' ?_ _) fun t f hf => ?_)
        · exact (hyields w r w₁ hr).trans (hid.symm.trans hid'.symm)
        · exact Cache.getElem?_setState_some hf s
  stops hw e w' h := by
    unfold Act.computing at h
    cases hr : supplier w with
    | ok r₁ w₁ =>
        rw [hr] at h
        cases h
    | error e₁ w₁ =>
        rw [hr] at h
        cases h
        refine (hx.stops hw e w₁ hr).trans (.of_cache (fun hw₁ => hw₁.abandon s) fun t f hf => ?_)
        exact Cache.getElem?_setState_some hf s

/-- An entry is computed for the identity that it was made for. -/
theorem resolveAt_inquiring (depth : Nat) (id : Identity) (path : List Identity)
    (w : Workspace Machine) :
    (Act.resolveAt Machine.surroundings depth id path).Keeps inquiring w := by
  induction depth generalizing id path w with
  | zero => exact throw_inquiring .nesting
  | succ depth ih =>
      rw [Act.resolveAt]
      refine .of_starts fun hw => inquiring_composes.bind (request_inquiring id) fun a w₁ _ ha => ?_
      obtain ⟨answer, w₂, hreq, -, hentry⟩ := request_inquired hw id
      cases ha.symm.trans hreq
      split
      · exact inquiring_composes.pure _
      · exact inquiring_composes.pure _
      · exact throw_inquiring .stuck
      · refine inquiring_composes.bind ?_ fun _ _ _ _ => inquiring_composes.pure _
        refine computing_inquiring ?_ resolveOne_yields (hentry _ _ rfl)
        exact inquiring_composes.resolveOne (fun l _ => Machine.crack_inquiring l)
          (fun _ => newStamp_inquiring)
          fun dep w₃ => ih dep _ w₃

theorem inquiring_lawful : inquiring.Lawful Machine.surroundings fun _ => True where
  toComposes := inquiring_composes
  named _ _ _ _ := trivial
  known _ _ _ _ := trivial
  resolve id w _ := by
    unfold Act.resolve
    refine inquiring_composes.bind_read (·.outside) (fun _ => rfl) fun _ => ?_
    refine inquiring_composes.bind (resolveAt_inquiring _ id [] w) fun a w₁ _ _ => ?_
    split
    · exact inquiring_composes.pure _
    · exact inquiring_composes.bind newStamp_inquiring fun _ _ _ _ => inquiring_composes.pure _

/-! ## Changes and scans -/

/-- The cache stays filed. -/
def filing : Conduct Machine where
  starts w := w.cache.Filed
  goes w w' := w.cache.Filed → w'.cache.Filed
  stops w _ w' := w.cache.Filed → w'.cache.Filed

theorem filing_composes : filing.Composes where
  refl _ h := h
  again _ _ hw h := h hw
  trans _ _ _ _ h h' hw := h' (h hw)
  late _ _ _ _ _ h h' hw := h' (h hw)

/-- An action that never fails and keeps the cache filed. -/
theorem Act.Keeps.of_filed {α : Type} {x : Act Machine α} {a : α} (h : x w = .ok a w')
    (hfiled : w.cache.Filed → w'.cache.Filed) : x.Keeps filing w where
  goes _ b w'' hx := by
    cases h.symm.trans hx
    exact hfiled
  stops _ e w'' hx := by cases h.symm.trans hx

theorem filing_hears : filing.Hears where
  toComposes := filing_composes
  insert _ _ _ := .of_filed rfl id
  remove _ _ := .of_filed rfl id
  solutions _ _ _ := .of_filed rfl id
  changed l _ := .of_filed rfl fun h => h.cascade l

theorem addRoot_filing (dir : Path) : (Machine.addRoot dir).Keeps filing w := by
  unfold Machine.addRoot
  refine filing_composes.bind_read (·.outside) (fun _ => rfl) fun _ => ?_
  split
  · exact filing_composes.pure _
  · refine filing_composes.bind (filing_composes.forM (fun id w => ?_) _)
      fun _ _ _ _ => filing_composes.pure _
    unfold Machine.register
    split
    · exact filing_composes.discard (filing_hears.solutionUpdated _ id)
    · exact .of_filed rfl fun h => h

end

/-! ## What can be reached -/

/-- The action ends in `w'`, whether it returns or is interrupted. -/
def Act.EndsIn {σ α : Type} (x : Act σ α) (w w' : Workspace σ) : Prop :=
  (∃ a, x w = .ok a w') ∨ ∃ e, x w = .error e w'

theorem Act.exists_endsIn {σ α : Type} (x : Act σ α) (w : Workspace σ) : ∃ w', x.EndsIn w w' := by
  cases h : x w with
  | ok a w' => exact ⟨w', Or.inl ⟨a, h⟩⟩
  | error e w' => exact ⟨w', Or.inr ⟨e, h⟩⟩

namespace Machine

/-- Something that is done with a workspace on a machine. -/
inductive Operation where
  | ask (q : Query)
  | tell (c : Change)
  | addRoot (dir : Path)
  /-- Whatever else happens to the disk, the working directory and the settings. -/
  | become (m : Machine)

def Operation.run : Operation → Act Machine Unit
  | ask q => q.runIn surroundings
  | tell c => c.runIn surroundings
  | addRoot dir => discard (Machine.addRoot dir)
  | become m => Act.modifyOutside fun _ => m

/-- The workspaces that operations end in. -/
inductive Reachable : Workspace Machine → Prop where
  | fresh (m : Machine) : Reachable (.fresh m)
  | step {w w' : Workspace Machine} (op : Operation) :
      Reachable w → op.run.EndsIn w w' → Reachable w'

/-- One question after the other leads from a workspace to another. -/
def Asked : Workspace Machine → Workspace Machine → Prop :=
  Relation.ReflTransGen fun w w' => ∃ q : Query, (q.runIn surroundings).EndsIn w w'

variable {w w' : Workspace Machine}

theorem query_inquired (q : Query) (hw : w.cache.Filed)
    (h : (q.runIn surroundings).EndsIn w w') : w.Inquired w' := by
  have hkeeps := q.keepsIn (w := w) inquiring_lawful
  rcases h with ⟨a, h⟩ | ⟨e, h⟩
  · exact hkeeps.goes hw a w' h
  · exact hkeeps.stops hw e w' h

theorem Operation.filed (op : Operation) (hw : w.cache.Filed)
    (h : op.run.EndsIn w w') : w'.cache.Filed := by
  have hfiling : ∀ {x : Act Machine Unit}, x.Keeps filing w → x.EndsIn w w' → w'.cache.Filed := by
    rintro x hx (⟨a, h⟩ | ⟨e, h⟩)
    · exact hx.goes hw a w' h hw
    · exact hx.stops hw e w' h hw
  cases op with
  | ask q => exact (query_inquired q hw h).filed hw
  | tell c => exact hfiling (c.keepsIn filing_hears _) h
  | addRoot dir => exact hfiling (filing_composes.discard (addRoot_filing dir)) h
  | become m => exact hfiling (x := Act.modifyOutside fun _ => m) (.of_filed rfl id) h

/-- Whatever was done, every value is filed under its file. -/
theorem Reachable.filed (h : Reachable w) : w.cache.Filed := by
  induction h with
  | fresh m => exact .empty
  | step op _ h ih => exact op.filed ih h

theorem Asked.inquired (h : Asked w w') (hw : w.cache.Filed) : w.Inquired w' := by
  induction h with
  | refl => exact .refl w
  | tail _ hlast ih =>
      obtain ⟨q, hq⟩ := hlast
      exact ih.trans (query_inquired q (ih.filed hw) hq)

end Machine

end FSharpWorkspace
