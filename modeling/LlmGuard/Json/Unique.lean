import LlmGuard.Json.Lookup

/-! # A document has one parse tree -/

namespace LlmGuard.Json

open Rfc8259 (Kind Label Value Items Ws Body Scalar quoted)

theorem ws_unique {w w' : Ws} {s s' : Bytes} (hs : skipWs s = s) (hs' : skipWs s' = s') (h : w.1 ++ s = w'.1 ++ s') :
    w = w' ∧ s = s' := by
  have hrest : s = s' := by
    have hskip := skipWs_ws w s
    rw [h, skipWs_ws w', hs, hs'] at hskip
    exact hskip.symm
  rw [hrest] at h
  exact ⟨Subtype.ext (List.append_cancel_right h), hrest⟩

theorem quoted_unique {b b' : Body} {s s' : Bytes} (h : quoted b.1 ++ s = quoted b'.1 ++ s') : b = b' ∧ s = s' := by
  have hrest : s = s' := by
    have hskip := skipString_quoted b s
    rw [h, skipString_quoted b' s'] at hskip
    exact (Option.some.inj hskip).symm
  rw [hrest] at h
  have hquoted := List.append_cancel_right h
  simp only [quoted, List.cons_append, List.cons.injEq, true_and] at hquoted
  exact ⟨Subtype.ext (List.append_cancel_right hquoted), hrest⟩

theorem label_unique {k : Kind} {label label' : Label k} {s s' : Bytes} (hs : skipWs s = s) (hs' : skipWs s' = s')
    {w w' : Ws} (h : label.text ++ (w.1 ++ s) = label'.text ++ (w'.1 ++ s')) : label = label' ∧ w = w' ∧ s = s' := by
  cases label with
  | element =>
    cases label'
    exact ⟨rfl, ws_unique hs hs' h⟩
  | key before name after =>
    cases label' with
    | key before' name' after' =>
      simp only [Label.text, List.append_assoc, List.cons_append, List.nil_append] at h
      have hquote : ∀ (b : Body) t, skipWs (quoted b.1 ++ t) = quoted b.1 ++ t := fun b t => skipWs_cons (by decide) _
      obtain ⟨rfl, hname⟩ := ws_unique (hquote _ _) (hquote _ _) h
      obtain ⟨rfl, hcolon⟩ := quoted_unique hname
      obtain ⟨rfl, hrest⟩ := ws_unique (skipWs_cons (by decide) _) (skipWs_cons (by decide) _) hcolon
      obtain ⟨rfl, rfl⟩ := ws_unique hs hs' (List.cons.inj hrest).2
      exact ⟨rfl, rfl, rfl⟩

/-- The value at the front of a text. -/
def ReadOnce (v : Value) : Prop :=
  ∀ v' r r', EndsNumber r → EndsNumber r' → v.text ++ r = v'.text ++ r' → v = v' ∧ r = r'

theorem items_unique {k : Kind} {items : Items k} (hvalues : ∀ v ∈ items.values, ReadOnce v) {items' : Items k}
    {r r' : Bytes} (h : items.text ++ k.closing :: r = items'.text ++ k.closing :: r') : items = items' ∧ r = r' := by
  have hcomma : ∀ s, skipWs (ch ',' :: s) = ch ',' :: s := fun s => skipWs_cons isWs_comma s
  have hclose : ∀ s, skipWs (k.closing :: s) = k.closing :: s := fun s => skipWs_cons (by cases k <;> decide) s
  have hends : ∀ (w : Ws) s, EndsNumber (w.1 ++ k.closing :: s) := fun w s => endsNumber_ws (endsNumber_closing k s)
  have hendsComma : ∀ (w : Ws) s, EndsNumber (w.1 ++ ch ',' :: s) := fun w s => endsNumber_ws (endsNumber_comma s)
  have hne : ch ',' ≠ k.closing := by cases k <;> decide
  induction items using Items.induction generalizing items' with
  | last label before v after =>
    have hv := hvalues v (by simp [Items.values])
    cases items' with
    | last label' before' v' after' =>
      simp only [Items.text, List.append_assoc] at h
      obtain ⟨rfl, rfl, hvalue⟩ := label_unique (skipWs_value _ _) (skipWs_value _ _) h
      obtain ⟨rfl, hafter⟩ := hv _ _ _ (hends _ _) (hends _ _) hvalue
      obtain ⟨rfl, hrest⟩ := ws_unique (hclose _) (hclose _) hafter
      exact ⟨rfl, (List.cons.inj hrest).2⟩
    | more label' before' v' after' rest' =>
      simp only [Items.text, List.append_assoc, List.cons_append] at h
      obtain ⟨rfl, rfl, hvalue⟩ := label_unique (skipWs_value _ _) (skipWs_value _ _) h
      obtain ⟨rfl, hafter⟩ := hv _ _ _ (hends _ _) (hendsComma _ _) hvalue
      obtain ⟨-, hrest⟩ := ws_unique (hclose _) (hcomma _) hafter
      exact absurd (List.cons.inj hrest).1.symm hne
  | more label before v after rest ih =>
    have hv := hvalues v (by simp [Items.values])
    cases items' with
    | last label' before' v' after' =>
      simp only [Items.text, List.append_assoc, List.cons_append] at h
      obtain ⟨rfl, rfl, hvalue⟩ := label_unique (skipWs_value _ _) (skipWs_value _ _) h
      obtain ⟨rfl, hafter⟩ := hv _ _ _ (hendsComma _ _) (hends _ _) hvalue
      obtain ⟨-, hrest⟩ := ws_unique (hcomma _) (hclose _) hafter
      exact absurd (List.cons.inj hrest).1 hne
    | more label' before' v' after' rest' =>
      simp only [Items.text, List.append_assoc, List.cons_append] at h
      obtain ⟨rfl, rfl, hvalue⟩ := label_unique (skipWs_value _ _) (skipWs_value _ _) h
      obtain ⟨rfl, hafter⟩ := hv _ _ _ (hendsComma _ _) (hendsComma _ _) hvalue
      obtain ⟨rfl, hrest⟩ := ws_unique (hcomma _) (hcomma _) hafter
      obtain ⟨rfl, rfl⟩ := ih (fun w hw => hvalues w (by simp [Items.values, hw])) (List.cons.inj hrest).2
      exact ⟨rfl, rfl⟩

theorem container_of_head {v : Value} {k : Kind} (h : v.text.head? = some k.opening) :
    (∃ w, v = .empty k w) ∨ ∃ items : Items k, v = .group k items := by
  cases v with
  | scalar t =>
    obtain ⟨c, s, ht, -, -, harray, hobject, -⟩ := head_scalar t
    rw [Value.text, ht, List.head?_cons, Option.some_inj] at h
    cases k
    · exact absurd h harray
    · exact absurd h hobject
  | string b => cases k <;> exact absurd (Option.some.inj h) (by decide)
  | empty k' w =>
    obtain rfl : k' = k := by cases k <;> cases k' <;> first | rfl | exact absurd (Option.some.inj h) (by decide)
    exact .inl ⟨w, rfl⟩
  | group k' items =>
    obtain rfl : k' = k := by cases k <;> cases k' <;> first | rfl | exact absurd (Option.some.inj h) (by decide)
    exact .inr ⟨items, rfl⟩

theorem items_head {k : Kind} (items : Items k) (s : Bytes) :
    ∃ c t, skipWs (items.text ++ s) = c :: t ∧ c ≠ k.closing := by
  have hlabel : ∀ (label : Label k) (before : Ws) (v : Value) (t : Bytes),
      ∃ c u, skipWs (label.text ++ (before.1 ++ (v.text ++ t))) = c :: u ∧ c ≠ k.closing := by
    intro label before v t
    cases label with
    | element =>
      obtain ⟨c, u, hv, -, hclose, -⟩ := head_text v
      refine ⟨c, u ++ t, ?_, hclose⟩
      rw [Label.text, List.nil_append, skipWs_ws, skipWs_value, hv, List.cons_append]
    | key outer name inner =>
      have hquote : ∀ u, skipWs (ch '"' :: u) = ch '"' :: u := fun u => skipWs_cons (by decide) u
      refine ⟨ch '"', name.1 ++ [ch '"'] ++ (inner.1 ++ ch ':' :: (before.1 ++ (v.text ++ t))), ?_, by decide⟩
      simp only [Label.text, quoted, List.append_assoc, List.cons_append, List.nil_append, skipWs_ws, hquote]
  cases items with
  | last label before v after =>
    simp only [Items.text, List.append_assoc]
    exact hlabel label before v _
  | more label before v after rest =>
    simp only [Items.text, List.append_assoc]
    exact hlabel label before v _

theorem empty_ne_group {k : Kind} {w : Ws} {items : Items k} (h : (Value.empty k w).text = (Value.group k items).text) :
    False := by
  obtain ⟨c, t, hitems, hc⟩ := items_head items [k.closing]
  have hbody : w.1 ++ [k.closing] = items.text ++ [k.closing] := by simpa [Value.text] using h
  rw [← hbody, skipWs_ws, show skipWs [k.closing] = [k.closing] by cases k <;> rfl] at hitems
  exact hc (List.cons.inj hitems).1.symm

/-- How far a value reaches does not depend on how it is read. -/
theorem ReadOnce.of_text {v : Value} (h : ∀ v', v.text = v'.text → v = v') : ReadOnce v := by
  intro v' r r' hr hr' heq
  obtain rfl : r = r' := by
    have hskip := skipValue_text v hr
    rw [heq, skipValue_text v' hr'] at hskip
    exact (Option.some.inj hskip).symm
  exact ⟨h v' (List.append_cancel_right heq), rfl⟩

/-- A document has one parse tree. -/
theorem text_injective (v : Value) : ∀ v', v.text = v'.text → v = v' := by
  intro v' htext
  induction v using Value.induction generalizing v' with
  | scalar t =>
    cases v' with
    | scalar t' => exact congrArg _ (Subtype.ext htext)
    | string b =>
      obtain ⟨b', hb⟩ := (head_quote_iff (.scalar t)).mp (by rw [htext]; rfl)
      cases hb
    | empty k w =>
      rcases container_of_head (v := .scalar t) (k := k) (by rw [htext]; rfl) with ⟨w, h⟩ | ⟨items, h⟩ <;> cases h
    | group k items =>
      rcases container_of_head (v := .scalar t) (k := k) (by rw [htext]; rfl) with ⟨w, h⟩ | ⟨items, h⟩ <;> cases h
  | string b =>
    obtain ⟨b', rfl⟩ := (head_quote_iff v').mp (by rw [← htext]; rfl)
    exact congrArg _ (quoted_unique (congrArg (· ++ []) htext)).1
  | empty k w =>
    rcases container_of_head (v := v') (k := k) (by rw [← htext]; rfl) with ⟨w', rfl⟩ | ⟨items, rfl⟩
    · have hbody : w.1 ++ [k.closing] = w'.1 ++ [k.closing] := by simpa [Value.text] using htext
      exact congrArg _ (Subtype.ext (List.append_cancel_right hbody))
    · exact (empty_ne_group htext).elim
  | group k items ih =>
    rcases container_of_head (v := v') (k := k) (by rw [← htext]; rfl) with ⟨w', rfl⟩ | ⟨items', rfl⟩
    · exact (empty_ne_group htext.symm).elim
    · have hitems : items.text ++ k.closing :: [] = items'.text ++ k.closing :: [] := by simpa [Value.text] using htext
      exact congrArg _ (items_unique (fun w hw => .of_text fun v' => ih w hw v') hitems).1

theorem reading_value {doc : Bytes} (t t' : Rfc8259.Reading doc) : t.value = t'.value := by
  have hdoc := t.eq.symm.trans t'.eq
  rw [List.append_assoc, List.append_assoc] at hdoc
  have hends : ∀ w : Ws, EndsNumber w.1 := fun w => by simpa using endsNumber_ws (w := w) (r := []) (by simp [EndsNumber])
  obtain ⟨-, hvalue⟩ := ws_unique (skipWs_value _ _) (skipWs_value _ _) hdoc
  exact (ReadOnce.of_text (text_injective t.value) _ _ _ (hends _) (hends _) hvalue).1

end LlmGuard.Json
