import CeremonyClient.Lib.Go

set_option autoImplicit false

namespace GoSem

variable {σ τ α β : Type}

variable {mask : List Bool} {items : List α} {body : α → Go β} {results : List β} {step : σ → α → Go (β × σ)} {state after : σ}

-- A loop over an array that rewrites every element and carries a shared state.
def mapAccumM (step : σ → α → Go (β × σ)) : σ → List α → Go (List β × σ)
  | state, [] => .ok ([], state)
  | state, item :: tail => do
      let first ← step state item
      let rest ← mapAccumM step first.2 tail
      return (first.1 :: rest.1, rest.2)

def select : List Bool → List α → List α
  | true :: mask, item :: tail => item :: select mask tail
  | false :: mask, _ :: tail => select mask tail
  | _, _ => []

@[simp] theorem select_nil : select mask ([] : List α) = [] := by
  cases mask with
  | nil => rfl
  | cons bit rest => cases bit <;> rfl

theorem select_filter {keep : α → Bool} : select (items.map keep) items = items.filter keep := by
  induction items with
  | nil => rfl
  | cons item tail ih => cases kept : keep item <;> simp [select, kept, ih]

theorem select_map {change : α → β} : select mask (items.map change) = (select mask items).map change := by
  induction items generalizing mask with
  | nil => simp
  | cons item tail ih =>
      rcases mask with _ | ⟨bit, rest⟩
      · rfl
      · cases bit <;> simp [select, ih]

theorem map_m_iff (body : α → Go β) (items : List α) (results : List β) :
    items.mapM body = .ok results ↔ List.Forall₂ (fun item result => body item = .ok result) items results := by
  induction items generalizing results with
  | nil =>
      rw [List.mapM_nil, List.forall₂_nil_left_iff]
      exact ⟨fun same => (Except.ok.inj same).symm, fun same => by rw [same]; rfl⟩
  | cons item tail ih =>
      rw [List.mapM_cons, bind_ok_iff]
      constructor
      · rintro ⟨value, first, rest⟩
        obtain ⟨others, after, same⟩ := (bind_ok_iff _ _ _).mp rest
        rw [← Except.ok.inj same]
        exact List.Forall₂.cons first ((ih others).mp after)
      · intro related
        cases related with
        | cons first rest =>
            refine ⟨_, first, ?_⟩
            rw [(ih _).mpr rest]
            rfl

theorem index_drop_cons {position : Nat} {first : α} {rest : List α} (remaining : items.drop position = first :: rest) :
    index items position = .ok first ∧ items.drop (position + 1) = rest := by
  constructor
  · rw [index_ok_iff, ← List.head?_drop, remaining, List.head?_cons]
  · rw [← List.tail_drop, remaining, List.tail_cons]

theorem fold_keeps (holds : σ → Prop) (body : σ → α → Go σ) (items : List α) (start result : σ) (begun : holds start)
    (each : ∀ item ∈ items, ∀ state next, holds state → body state item = .ok next → holds next)
    (ran : items.foldlM body start = .ok result) : holds result := by
  induction items generalizing start with
  | nil =>
      cases ran
      exact begun
  | cons item tail ih =>
      obtain ⟨first, rest⟩ := List.forall_mem_cons.mp each
      rw [List.foldlM_cons, bind_ok_iff] at ran
      obtain ⟨next, isNext, ran⟩ := ran
      exact ih next (first start next begun isNext) rest ran

theorem map_m_congr {other : α → Go β} (same : ∀ item ∈ items, body item = other item) : items.mapM body = items.mapM other := by
  induction items with
  | nil => rfl
  | cons item tail ih =>
      obtain ⟨first, rest⟩ := List.forall_mem_cons.mp same
      rw [List.mapM_cons, List.mapM_cons, first, ih rest]

theorem map_m_fin_range {n : Nat} {body : Fin n → Go β} :
    (List.finRange n).mapM body = .ok results ↔ ∃ each : Fin n → β, (∀ i, body i = .ok (each i)) ∧ results = (List.finRange n).map each := by
  rw [map_m_iff]
  constructor
  · intro related
    have size : n = results.length := by simpa using related.length_eq
    have at_index := (List.forall₂_iff_get.mp related).2
    refine ⟨fun i => results.get ⟨i.val, size ▸ i.isLt⟩, fun i => ?_, ?_⟩
    · simpa using at_index i.val (by simp) (size ▸ i.isLt)
    · apply List.ext_getElem
      · simpa using size.symm
      · simp
  · rintro ⟨each, ran, same⟩
    rw [same, List.forall₂_map_right_iff, List.forall₂_same]
    exact fun i _ => ran i

theorem map_m_select (done : items.mapM body = .ok results) : (select mask items).mapM body = .ok (select mask results) := by
  rw [map_m_iff] at done ⊢
  induction done generalizing mask with
  | nil => simp
  | cons first rest ih =>
      rcases mask with _ | ⟨bit, others⟩
      · exact List.Forall₂.nil
      · cases bit with
        | true => exact List.Forall₂.cons first ih
        | false => exact ih

theorem map_accum_cons {item : α} {tail : List α} :
    mapAccumM step state (item :: tail) = .ok (results, after) ↔
      ∃ first between rest, step state item = .ok (first, between) ∧ mapAccumM step between tail = .ok (rest, after) ∧
        results = first :: rest := by
  rw [mapAccumM, bind_ok_iff]
  constructor
  · rintro ⟨⟨first, between⟩, begun, later⟩
    obtain ⟨⟨rest, last⟩, ran, same⟩ := (bind_ok_iff _ _ _).mp later
    obtain ⟨sameList, sameState⟩ := Prod.mk.injEq .. ▸ Except.ok.inj same
    exact ⟨first, between, rest, begun, sameState ▸ ran, sameList.symm⟩
  · rintro ⟨first, between, rest, begun, ran, same⟩
    refine ⟨(first, between), begun, ?_⟩
    rw [ran, same]
    rfl

theorem map_accum_related (related : α → β → Prop)
    (each : ∀ state item result after, step state item = .ok (result, after) → related item result)
    (done : mapAccumM step state items = .ok (results, after)) : List.Forall₂ related items results := by
  induction items generalizing state results with
  | nil =>
      cases done
      exact List.Forall₂.nil
  | cons item tail ih =>
      obtain ⟨first, between, rest, begun, ran, same⟩ := map_accum_cons.mp done
      rw [same]
      exact List.Forall₂.cons (each state item first between begun) (ih ran)

theorem map_m_total (body : α → Go β) (items : List α) (each : ∀ item ∈ items, ∃ out, body item = .ok out) :
    ∃ out, items.mapM body = .ok out := by
  induction items with
  | nil => exact ⟨_, rfl⟩
  | cons item tail ih =>
      obtain ⟨head, rest⟩ := List.forall_mem_cons.mp each
      obtain ⟨first, ran⟩ := head
      obtain ⟨others, ranRest⟩ := ih rest
      exact ⟨_, by rw [List.mapM_cons, ran, ok_bind, ranRest]; rfl⟩

theorem map_m_map {ι : Type} (body : α → Go β) (before : ι → α) (after : ι → β) (items : List ι)
    (each : ∀ item ∈ items, body (before item) = .ok (after item)) : (items.map before).mapM body = .ok (items.map after) := by
  rw [map_m_iff, List.forall₂_map_left_iff, List.forall₂_map_right_iff, List.forall₂_same]
  exact each

theorem map_accum_map {ι : Type} (step : σ → α → Go (β × σ)) (before : ι → α) (after : ι → β) (holds : σ → List ι → Prop)
    (each : ∀ state item rest, holds state (item :: rest) →
      ∃ between, step state (before item) = .ok (after item, between) ∧ holds between rest)
    (state : σ) (items : List ι) (start : holds state items) :
    ∃ last, mapAccumM step state (items.map before) = .ok (items.map after, last) := by
  induction items generalizing state with
  | nil => exact ⟨state, rfl⟩
  | cons item rest ih =>
      obtain ⟨between, ran, next⟩ := each state item rest start
      obtain ⟨last, tail⟩ := ih between next
      exact ⟨last, map_accum_cons.mpr ⟨after item, between, _, ran, tail, rfl⟩⟩

variable {related : α → β → Prop}

variable {before : α → Prop}

theorem forall₂_transfer {holds : β → Prop} {items : List α} {results : List β}
    (each : ∀ item result, related item result → before item → holds result)
    (steps : List.Forall₂ related items results) (start : ∀ item ∈ items, before item) : ∀ result ∈ results, holds result := by
  induction steps with
  | nil => simp
  | cons first rest ih =>
      rw [List.forall_mem_cons] at start ⊢
      exact ⟨each _ _ first start.1, ih start.2⟩

theorem map_accum_transfer {holds : β → Prop}
    (each : ∀ state item result after, step state item = .ok (result, after) → before item → holds result) {state after : σ}
    {items : List α} {results : List β} (done : mapAccumM step state items = .ok (results, after)) (start : ∀ item ∈ items, before item) :
    ∀ result ∈ results, holds result :=
  forall₂_transfer (fun _ _ related => related) (map_accum_related _ each done) start

theorem forall₂_map_eq {γ : Type} {view : α → γ} {items results : List α}
    (steps : List.Forall₂ (fun item result => view result = view item) items results) : results.map view = items.map view := by
  induction steps with
  | nil => rfl
  | cons first rest ih => rw [List.map_cons, List.map_cons, first, ih]

theorem forall₂_trans {γ : Type} {first : α → β → Prop} {second : β → γ → Prop} {both : α → γ → Prop} {items : List α}
    {between : List β} {results : List γ} (each : ∀ item middle result, first item middle → second middle result → both item result)
    (begun : List.Forall₂ first items between) (ended : List.Forall₂ second between results) :
    List.Forall₂ both items results := by
  induction begun generalizing results with
  | nil =>
      cases ended
      exact List.Forall₂.nil
  | cons step rest ih =>
      cases ended with
      | cons last others => exact List.Forall₂.cons (each _ _ _ step last) (ih others)

theorem forall₂_all_iff {after : β → Prop} {items : List α} {results : List β}
    (each : ∀ item result, related item result → (after result ↔ before item)) (steps : List.Forall₂ related items results) :
    (∀ result ∈ results, after result) ↔ ∀ item ∈ items, before item := by
  induction steps with
  | nil => simp
  | cons first rest ih => rw [List.forall_mem_cons, List.forall_mem_cons, each _ _ first, ih]

theorem forall₂_attach {items : List α} {results : List β}
    (steps : List.Forall₂ related items results) (start : ∀ item ∈ items, before item) :
    List.Forall₂ (fun item result => related item result ∧ before item) items results := by
  induction steps with
  | nil => exact List.Forall₂.nil
  | cons first rest ih =>
      rw [List.forall_mem_cons] at start
      exact List.Forall₂.cons ⟨first, start.1⟩ (ih start.2)

theorem forall₂_left_member {items : List α} {results : List β}
    (steps : List.Forall₂ related items results) : ∀ item ∈ items, ∃ result ∈ results, related item result := by
  induction steps with
  | nil => simp
  | cons first rest ih =>
      rw [List.forall_mem_cons]
      refine ⟨⟨_, List.mem_cons_self, first⟩, fun item member => ?_⟩
      obtain ⟨result, inResults, holds⟩ := ih item member
      exact ⟨result, List.mem_cons_of_mem _ inResults, holds⟩

theorem forall₂_pull {stated : Bool → β → Prop} {means : Bool → α → Prop} {items : List α}
    {results : List β} {mask : List Bool} (each : ∀ item result bit, related item result → stated bit result → means bit item)
    (steps : List.Forall₂ related items results) (marks : List.Forall₂ stated mask results) :
    List.Forall₂ means mask items := by
  induction steps generalizing mask with
  | nil =>
      cases marks
      exact List.Forall₂.nil
  | cons first rest ih =>
      cases marks with
      | cons mark others => exact List.Forall₂.cons (each _ _ _ first mark) (ih others)

theorem map_accum_select (step : σ → α → Go (β × σ)) (replay : τ → α → Go (β × τ)) (related : τ → σ → Prop)
    (good : α → Prop) (fate : Bool → β → Prop)
    (keep : ∀ state shadow item result after, related shadow state → good item → fate true result →
      step state item = .ok (result, after) →
      ∃ shadowAfter, replay shadow item = .ok (result, shadowAfter) ∧ related shadowAfter after)
    (drop : ∀ state shadow item result after, related shadow state → fate false result →
      step state item = .ok (result, after) → related shadow after)
    (mask : List Bool) (state after : σ) (shadow : τ) (items : List α) (results : List β)
    (start : related shadow state) (fit : ∀ item ∈ items, good item) (done : mapAccumM step state items = .ok (results, after))
    (fates : List.Forall₂ fate mask results) :
    ∃ shadowAfter, mapAccumM replay shadow (select mask items) = .ok (select mask results, shadowAfter) ∧
      related shadowAfter after := by
  induction items generalizing state shadow results mask with
  | nil =>
      cases done
      exact ⟨shadow, by simp [mapAccumM], start⟩
  | cons item tail ih =>
      obtain ⟨first, between, rest, begun, ran, same⟩ := map_accum_cons.mp done
      subst same
      rw [List.forall_mem_cons] at fit
      cases fates with
      | @cons bit _ others _ mark later =>
          cases bit with
          | true =>
              obtain ⟨shadowBetween, replayed, next⟩ := keep state shadow item first between start fit.1 mark begun
              obtain ⟨shadowAfter, tailRan, last⟩ := ih others between shadowBetween rest next fit.2 ran later
              exact ⟨shadowAfter, map_accum_cons.mpr ⟨first, shadowBetween, _, replayed, tailRan, rfl⟩, last⟩
          | false =>
              have next := drop state shadow item first between start mark begun
              exact ih others between shadow rest next fit.2 ran later

end GoSem
