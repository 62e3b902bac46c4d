import TypedClient.Template.Basic
import TypedClient.Text.Basic

/-!
# What a template renders

The text of a repeated part is put together from those of the items, as long as all variables of
the part are there (`render?_each`). Nodes that have a text each have one together (`textOf`,
`renderAll?_eq_textOf`).
-/

namespace TypedClient.Template

variable {α : Type} {env : Env} {name : String} {path : List String} {body : List Node}

@[simp]
theorem renderAll?_nil : renderAll? env [] = some "" := rfl

/-- The text of one part, and then that of the others. -/
theorem renderAll?_cons {node : Node} {text : String} (h : node.render? env = some text)
    (rest : List Node) :
    renderAll? env (node :: rest) = (renderAll? env rest).map (text ++ ·) := by
  rw [renderAll?, h]

theorem renderAll?_singleton {node : Node} {text : String} (h : node.render? env = some text) :
    renderAll? env [node] = some text := by
  rw [renderAll?_cons h, renderAll?_nil, Option.map_some, String.append_empty]

@[simp]
theorem renderAll?_text (s : String) (rest : List Node) :
    renderAll? env (.text s :: rest) = (renderAll? env rest).map (s ++ ·) :=
  renderAll?_cons rfl rest

theorem renderAll?_value {v : Json} (h : env.lookup? path = some v) (rest : List Node) :
    renderAll? env (.value path :: rest) = (renderAll? env rest).map (valueText v ++ ·) :=
  renderAll?_cons (by rw [Node.render?, h, Option.map_some]) rest

/-- What comes first is rendered first. -/
theorem renderAll?_append {nodes : List Node} {text : String} (h : renderAll? env nodes = some text)
    (rest : List Node) :
    renderAll? env (nodes ++ rest) = (renderAll? env rest).map (text ++ ·) := by
  induction nodes generalizing text with
  | nil =>
      obtain rfl := Option.some.inj h
      cases hrest : renderAll? env rest <;> simp [hrest]
  | cons node nodes ih =>
      cases hnode : node.render? env with
      | none => simp [renderAll?, hnode] at h
      | some first =>
          rw [renderAll?_cons hnode] at h
          obtain ⟨others, hothers, rfl⟩ := Option.map_eq_some_iff.1 h
          rw [List.cons_append, renderAll?_cons hnode, ih hothers, Option.map_map]
          simp only [Function.comp_def, String.append_assoc]

/-! ## Nodes with a text -/

/-- The text of some nodes; none if a variable is missing. -/
def textOf (env : Env) (nodes : List Node) : String := (renderAll? env nodes).getD ""

/-- Nodes that have a text each have one together. -/
theorem renderAll?_eq_textOf {nodes : List Node}
    (h : ∀ node ∈ nodes, ∃ text, node.render? env = some text) :
    renderAll? env nodes = some (textOf env nodes) := by
  have hsome : ∃ text, renderAll? env nodes = some text := by
    induction nodes with
    | nil => exact ⟨"", rfl⟩
    | cons node nodes ih =>
        obtain ⟨text, htext⟩ := h node List.mem_cons_self
        obtain ⟨others, hothers⟩ := ih fun other hother => h other (List.mem_cons_of_mem _ hother)
        exact ⟨text ++ others, by rw [renderAll?_cons htext, hothers, Option.map_some]⟩
  obtain ⟨text, htext⟩ := hsome
  rw [textOf, htext, Option.getD_some]

theorem exists_render?_value {v : Json} (h : env.lookup? path = some v) :
    ∃ text, (Node.value path).render? env = some text :=
  ⟨valueText v, by rw [Node.render?, h, Option.map_some]⟩

/-! ## Repeated and optional parts -/

/-- Texts that are all rendered are gathered. -/
theorem mapM_render {items : List α} {render : α → Option String} {text : α → String}
    (h : ∀ a ∈ items, render a = some (text a)) : items.mapM render = some (items.map text) := by
  induction items with
  | nil => rfl
  | cons a items ih =>
      rw [List.mapM_cons, h a List.mem_cons_self, ih fun b hb => h b (List.mem_cons_of_mem _ hb)]
      rfl

/-- A repeated part, rendered once for every item. -/
theorem render?_each (items : List α) (item : α → Json) {text : α → String}
    (hitems : env.lookup? path = some (.array (items.map item)))
    (hbody : ∀ a ∈ items, renderAll? (env.bind name (item a)) body = some (text a)) :
    (Node.each name path body).render? env = some (Text.concat (items.map text)) := by
  have htexts := mapM_render hbody
  rw [Node.render?, hitems]
  simp only [Option.bind_some, itemsOf?, List.mapM_map, Function.comp_def, htexts, Option.map_some,
    Text.concat]

/-- A part that depends on whether a value counts as true. -/
theorem render?_when (flag : Bool) {yes no : List Node}
    (hflag : (env.lookup? path).any isTruthy = flag) :
    (Node.when (.holds path) yes no).render? env = renderAll? env (if flag then yes else no) := by
  cases flag <;> simp [Node.render?, Test.passes?, hflag]

/-- A part for a value, if it is there, has a text. -/
theorem exists_render?_when {yes : List Node}
    (hyes : (env.lookup? path).any isTruthy = true →
      ∀ node ∈ yes, ∃ text, node.render? env = some text) :
    ∃ text, (Node.when (.holds path) yes []).render? env = some text := by
  rw [render?_when _ rfl]
  cases hflag : (env.lookup? path).any isTruthy with
  | false => exact ⟨"", rfl⟩
  | true => exact ⟨_, renderAll?_eq_textOf (hyes hflag)⟩

/-- A repeated part has a text if it has one for every item. -/
theorem exists_render?_each (items : List α) (item : α → Json)
    (hitems : env.lookup? path = some (.array (items.map item)))
    (hbody : ∀ a ∈ items, ∀ node ∈ body, ∃ text, node.render? (env.bind name (item a)) = some text) :
    ∃ text, (Node.each name path body).render? env = some text :=
  ⟨_, render?_each items item hitems fun a ha => renderAll?_eq_textOf (hbody a ha)⟩

end TypedClient.Template
