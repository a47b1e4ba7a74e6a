/-!
# Categories of properties

The standard order of properties: positioning, box model, typography, other visual properties.
Some properties form families, a shorthand and its longhands in clockwise order.
-/

namespace SheetLint.PropertyOrder

/-- Where a box stands. -/
def positioning : List String :=
  ["position", "inset", "top", "right", "bottom", "left", "z-index"]

/-- How a box is made up. -/
def boxModel : List String :=
  ["display", "flex", "flex-basis", "flex-direction", "flex-flow", "flex-grow", "flex-shrink",
    "flex-wrap", "grid", "grid-area", "grid-template", "grid-template-areas",
    "grid-template-rows", "grid-template-columns", "grid-row", "grid-column", "grid-auto-flow",
    "gap", "row-gap", "column-gap", "align-content", "align-items", "align-self",
    "justify-content", "justify-items", "justify-self", "order", "float", "clear", "box-sizing",
    "width", "min-width", "max-width", "height", "min-height", "max-height", "margin",
    "margin-top", "margin-right", "margin-bottom", "margin-left", "padding", "padding-top",
    "padding-right", "padding-bottom", "padding-left", "border", "border-top", "border-right",
    "border-bottom", "border-left", "border-width", "border-top-width", "border-right-width",
    "border-bottom-width", "border-left-width", "border-style", "border-top-style",
    "border-right-style", "border-bottom-style", "border-left-style", "border-color",
    "border-top-color", "border-right-color", "border-bottom-color", "border-left-color",
    "border-radius", "border-top-left-radius", "border-top-right-radius",
    "border-bottom-right-radius", "border-bottom-left-radius", "overflow", "overflow-x",
    "overflow-y"]

/-- How text looks. -/
def typography : List String :=
  ["color", "font", "font-family", "font-size", "font-style", "font-weight", "font-variant",
    "line-height", "letter-spacing", "word-spacing", "text-align", "text-decoration",
    "text-indent", "text-overflow", "text-shadow", "text-transform", "vertical-align",
    "white-space", "word-break", "overflow-wrap", "list-style"]

/-- What else shows. -/
def visual : List String :=
  ["background", "background-color", "background-image", "background-position",
    "background-repeat", "background-size", "box-shadow", "outline", "opacity", "visibility",
    "cursor", "pointer-events", "content", "transform", "transition", "animation"]

/-- The groups of the standard order. -/
def standardGroups : List (List String) := [positioning, boxModel, typography, visual]

/-- The families: a shorthand, then its sides or corners clockwise from the top. -/
def families : List (List String) :=
  [["inset", "top", "right", "bottom", "left"],
    ["margin", "margin-top", "margin-right", "margin-bottom", "margin-left"],
    ["padding", "padding-top", "padding-right", "padding-bottom", "padding-left"],
    ["border-width", "border-top-width", "border-right-width", "border-bottom-width",
      "border-left-width"],
    ["border-style", "border-top-style", "border-right-style", "border-bottom-style",
      "border-left-style"],
    ["border-color", "border-top-color", "border-right-color", "border-bottom-color",
      "border-left-color"],
    ["border-radius", "border-top-left-radius", "border-top-right-radius",
      "border-bottom-right-radius", "border-bottom-left-radius"]]

/-- The number of the family that a property is in, and its place there. -/
def familyOf? (property : String) : Option (Nat × Nat) :=
  families.zipIdx.findSome? fun (members, family) =>
    (members.idxOf? property).map fun place => (family, place)

end SheetLint.PropertyOrder
