import Shortcode.Registry
import Shortcode.Text.Markup

/-!
# Standard shortcodes

The handlers a registry can be filled with from the start: `info` and
`tick` set their content apart in a callout, `daily-drop` renders the
heading of a post of that series, and `raw` gives its body back as it is
written. Content goes through the expansion again, except that of `raw`;
titles and blurbs are escaped and never expanded.
-/

namespace Shortcode.Standard

/-- The icon of an `info` callout. -/
def infoIcon : String :=
  "<svg xmlns=\"http://www.w3.org/2000/svg\" class=\"icon " ++
  "icon-tabler icon-tabler-info-circle\" width=\"44\" height=\"44\" " ++
  "viewBox=\"0 0 24 24\" stroke-width=\"1.5\" stroke=\"#00abfb\" " ++
  "fill=\"none\" stroke-linecap=\"round\" stroke-linejoin=\"round\">\n" ++
  "    <path stroke=\"none\" d=\"M0 0h24v24H0z\" fill=\"none\" />\n" ++
  "    <circle cx=\"12\" cy=\"12\" r=\"9\" />\n" ++
  "    <line x1=\"12\" y1=\"8\" x2=\"12.01\" y2=\"8\" />\n" ++
  "    <polyline points=\"11 12 12 12 12 16 13 16\" />\n" ++
  "</svg>"

/-- The icon of a `tick` callout. -/
def tickIcon : String :=
  "<svg xmlns=\"http://www.w3.org/2000/svg\" class=\"icon " ++
  "icon-tabler icon-tabler-circle-check\" width=\"44\" height=\"44\" " ++
  "viewBox=\"0 0 24 24\" stroke-width=\"2\" stroke=\"#7bc62d\" " ++
  "fill=\"none\" stroke-linecap=\"round\" stroke-linejoin=\"round\">\n" ++
  "    <path stroke=\"none\" d=\"M0 0h24v24H0z\" fill=\"none\" />\n" ++
  "    <circle cx=\"12\" cy=\"12\" r=\"9\" />\n" ++
  "    <path d=\"M9 12l2 2l4 -4\" />\n" ++
  "</svg>"

/-- The icon of a `daily-drop` heading. -/
def bulbIcon : String :=
  "<svg xmlns=\"http://www.w3.org/2000/svg\" class=\"icon " ++
  "icon-tabler icon-tabler-bulb\" width=\"50\" height=\"50\" " ++
  "viewBox=\"0 0 24 24\" stroke-width=\"1.5\" stroke=\"#ffec00\" " ++
  "fill=\"none\" stroke-linecap=\"round\" stroke-linejoin=\"round\">\n" ++
  "    <path stroke=\"none\" d=\"M0 0h24v24H0z\" fill=\"none\"/>\n" ++
  "    <path d=\"M3 12h1m8 -9v1m8 8h1m-15.4 -6.4l.7 .7m12.1 " ++
  "-.7l-.7 .7\" />\n" ++
  "    <path d=\"M9 16a5 5 0 1 1 6 0a3.5 3.5 0 0 0 -1 3a2 2 0 0 1 " ++
  "-4 0a3.5 3.5 0 0 0 -1 -3\" />\n" ++
  "    <line x1=\"9.7\" y1=\"17\" x2=\"14.3\" y2=\"17\" />\n" ++
  "</svg>"

/-- How an icon is placed beside the content. -/
def iconStyle : String :=
  "width: 5%; float: left; vertical-align: middle; " ++
  "padding-right: 60px;"

/-- The blurb of a `daily-drop` heading that names none. -/
def defaultBlurb : Text :=
  ("The Daily Drop is a record of these pieces of knowledge - " ++
    "writing about and summarizing them helps re-enforce the " ++
    "information for myself, as well as potentially helps others " ++
    "learn something new as well.").toList

/-- The title of a callout, in front of its content; an empty title is
left out. -/
def titleLine (title : Option Text) : Text :=
  match title with
  | none | some [] => []
  | some t =>
    "<div class=\"callout-title\">".toList ++ t.escape ++ "</div>\n".toList

/-- What stands before the content of a callout. -/
def calloutOpening (icon : String) (title : Option Text) : Text :=
  ("<blockquote class=\"info-block\">\n<div>\n<div style=\"" ++ iconStyle ++
    "\">\n" ++ icon ++ "\n</div>\n<div>\n").toList ++
    titleLine title ++ "<p>".toList

/-- What stands behind the content of a callout. -/
def calloutClosing : Text :=
  "</p>\n</div>\n</div>\n</blockquote>".toList

/-- The content of a callout: its body, or its argument `text`, which
may be there without a value. -/
def calloutContent (inv : Invocation) : Option Text :=
  match inv.body with
  | some b => some b
  | none => inv.arguments.get "text".toList (some [])

/-- A callout with an icon. -/
def callout (icon : String) (v : View) : Program :=
  .finish (.items .list
    [.fragment
        ⟨some (calloutOpening icon (v.invocation.arguments.get "title".toList)),
          false⟩,
      .fragment ⟨calloutContent v.invocation, true⟩,
      .fragment ⟨some calloutClosing, false⟩])

/-- What stands before the body of a `daily-drop` heading. -/
def dropOpening : Text :=
  ("<blockquote class=\"daily-drop\">\n<div>\n<div style=\"" ++ iconStyle ++
    "\">\n" ++ bulbIcon ++
    "\n</div>\n<div class=\"drop-header\">\nDaily Drop ").toList

/-- The blurb of a `daily-drop` heading; an empty one does not count. -/
def blurbOf (args : Arguments) : Text :=
  match args.get "blurb".toList with
  | none | some [] => defaultBlurb
  | some t => t

/-- What stands behind the body of a `daily-drop` heading. -/
def dropClosing (args : Arguments) : Text :=
  "\n</div>\n<div>\n".toList ++ (blurbOf args).escape ++
    "\n</div>\n</div>\n</blockquote>".toList

/-- The heading of a post. -/
def dailyDrop (v : View) : Program :=
  .finish (.items .list
    [.fragment ⟨some dropOpening, false⟩,
      .fragment ⟨some (v.invocation.body.getD []), true⟩,
      .fragment ⟨some (dropClosing v.invocation.arguments), false⟩])

/-- The body as it is written. -/
def raw (v : View) : Program :=
  .finish (.fragment ⟨some (v.invocation.body.getD []), false⟩)

/-- The standard handlers with their names, in the order in which they
are added. -/
def handlers : List (Text × Candidate) :=
  [("info".toList, .handler ⟨"<InfoBlock 'info'>".toList, true,
      callout infoIcon⟩),
    ("tick".toList, .handler ⟨"<TickBlock 'tick'>".toList, true,
      callout tickIcon⟩),
    ("daily-drop".toList,
      .function "register.<locals>.daily_drop".toList false dailyDrop),
    ("raw".toList,
      .function "register.<locals>.raw_shortcode".toList false raw)]

/-- The standard handlers as they are added to a registry. -/
def bindings : List (Value × Candidate) :=
  handlers.map fun (name, candidate) => (.text name, candidate)

/-- A registry with the standard handlers. -/
def registry : Registry :=
  (Registry.load {} false bindings).1

end Shortcode.Standard
