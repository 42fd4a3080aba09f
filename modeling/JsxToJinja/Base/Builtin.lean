import JsxToJinja.Base.Mapping

/-! Mappings of the base components that are known without a mappings file. -/
namespace JsxToJinja.Builtin

/-- Library whose components can also be detected from its distribution. -/
def libraryName : String := "@utrecht/component-library-react"

private def added (classes : List String) : PropEffect := ⟨classes, []⟩

private def whenSet (effect : PropEffect) : PropMapping := .boolean effect {}

private def alert : ComponentMapping :=
  { tag := "div"
    classes := ["utrecht-alert"]
    props := [
      ("type", .values [
        ("error", added ["utrecht-alert--error"]),
        ("info", added ["utrecht-alert--info"]),
        ("ok", added ["utrecht-alert--ok"]),
        ("warning", added ["utrecht-alert--warning"])])] }

private def button : ComponentMapping :=
  { tag := "button"
    classes := ["utrecht-button"]
    attributes := [("type", "button")]
    props := [
      ("appearance", .values [
        ("primary-action-button", added ["utrecht-button--primary-action"]),
        ("secondary-action-button", added ["utrecht-button--secondary-action"]),
        ("subtle-button", added ["utrecht-button--subtle"])]),
      ("busy", whenSet ⟨["utrecht-button--busy"], [("aria-busy", "true")]⟩),
      ("disabled", whenSet ⟨["utrecht-button--disabled"], [("disabled", "disabled")]⟩),
      ("hint", .values [
        ("danger", added ["utrecht-button--danger"]),
        ("ready", added ["utrecht-button--ready"]),
        ("warning", added ["utrecht-button--warning"])]),
      ("pressed", whenSet ⟨["utrecht-button--pressed"], [("aria-pressed", "true")]⟩),
      ("type", .attribute "type")] }

private def buttonGroup : ComponentMapping :=
  { tag := "div"
    classes := ["utrecht-button-group"]
    attributes := [("role", "group")]
    props := [
      ("direction", .values [
        ("column", added ["utrecht-button-group--column"]),
        ("row", added ["utrecht-button-group--row"])])] }

private def fieldset : ComponentMapping :=
  { tag := "fieldset"
    classes := ["utrecht-form-fieldset__fieldset", "utrecht-form-fieldset--html-fieldset"]
    wrapper := some ⟨"div", ["utrecht-form-fieldset", "utrecht-form-fieldset--html-div"]⟩
    props := [
      ("disabled", whenSet ⟨[], [("disabled", "disabled")]⟩),
      ("invalid", whenSet ⟨["utrecht-form-fieldset--invalid"], [("aria-invalid", "true")]⟩)] }

private def fieldsetLegend : ComponentMapping :=
  { tag := "legend"
    classes := ["utrecht-form-fieldset__legend", "utrecht-form-fieldset__legend--html-legend"] }

private def heading1 : ComponentMapping :=
  { tag := "h1", classes := ["utrecht-heading-1"] }

private def heading2 : ComponentMapping :=
  { tag := "h2", classes := ["utrecht-heading-2"] }

private def heading3 : ComponentMapping :=
  { tag := "h3", classes := ["utrecht-heading-3"] }

private def heading4 : ComponentMapping :=
  { tag := "h4", classes := ["utrecht-heading-4"] }

private def heading5 : ComponentMapping :=
  { tag := "h5", classes := ["utrecht-heading-5"] }

private def heading6 : ComponentMapping :=
  { tag := "h6", classes := ["utrecht-heading-6"] }

private def link : ComponentMapping :=
  { tag := "a"
    classes := ["utrecht-link", "utrecht-link--html-a"]
    props := [
      ("external", whenSet
        ⟨["utrecht-link--external"], [("rel", "external noopener noreferrer")]⟩),
      ("href", .attribute "href"),
      ("placeholder", whenSet ⟨["utrecht-link--placeholder"], []⟩)] }

private def paragraph : ComponentMapping :=
  { tag := "p"
    classes := ["utrecht-paragraph"]
    props := [
      ("lead", whenSet ⟨["utrecht-paragraph--lead"], []⟩),
      ("small", whenSet ⟨["utrecht-paragraph--small"], []⟩)] }

private def textbox : ComponentMapping :=
  { tag := "input"
    classes := ["utrecht-textbox", "utrecht-textbox--html-input"]
    props := [
      ("disabled", whenSet ⟨["utrecht-textbox--disabled"], [("disabled", "disabled")]⟩),
      ("invalid", whenSet ⟨["utrecht-textbox--invalid"], [("aria-invalid", "true")]⟩),
      ("readOnly", whenSet ⟨["utrecht-textbox--readonly"], [("readonly", "readonly")]⟩),
      ("required", whenSet ⟨["utrecht-textbox--required"], [("required", "required")]⟩),
      ("type", .attribute "type")] }

private def unorderedList : ComponentMapping :=
  { tag := "ul"
    classes := ["utrecht-unordered-list"]
    props := [
      ("nested", whenSet ⟨["utrecht-unordered-list--nested"], []⟩)] }

private def unorderedListItem : ComponentMapping :=
  { tag := "li", classes := ["utrecht-unordered-list__item"] }

def table : MappingTable :=
  [(libraryName, [
    ("Alert", alert),
    ("Button", button),
    ("ButtonGroup", buttonGroup),
    ("Fieldset", fieldset),
    ("FieldsetLegend", fieldsetLegend),
    ("Heading1", heading1),
    ("Heading2", heading2),
    ("Heading3", heading3),
    ("Heading4", heading4),
    ("Heading5", heading5),
    ("Heading6", heading6),
    ("Link", link),
    ("Paragraph", paragraph),
    ("Textbox", textbox),
    ("UnorderedList", unorderedList),
    ("UnorderedListItem", unorderedListItem)])]

end JsxToJinja.Builtin
