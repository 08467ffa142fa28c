import RoleAudit.Role.Registry

/-!
# The standard roles

The roles of ARIA 1.1 and of its module for digital publishing, each with the
roles that it specialises.
-/

namespace RoleAudit.Role

/-- A role that may stand in a document. -/
def concrete (name : String) (superclasses : List String) : Entry :=
  ⟨name, ⟨false, superclasses⟩⟩

/-- A role that only other roles build on. -/
def abstract (name : String) (superclasses : List String) : Entry :=
  ⟨name, ⟨true, superclasses⟩⟩

/-- The entries of the standard roles, in the order of their names. -/
def standardEntries : List Entry :=
  [concrete "alert" ["section"],
    concrete "alertdialog" ["alert", "dialog"],
    concrete "application" ["structure"],
    concrete "article" ["document"],
    concrete "banner" ["landmark"],
    concrete "button" ["command"],
    concrete "cell" ["section"],
    concrete "checkbox" ["input"],
    concrete "columnheader" ["cell", "gridcell", "sectionhead"],
    concrete "combobox" ["select"],
    abstract "command" ["widget"],
    concrete "complementary" ["landmark"],
    abstract "composite" ["widget"],
    concrete "contentinfo" ["landmark"],
    concrete "definition" ["section"],
    concrete "dialog" ["window"],
    concrete "directory" ["list"],
    concrete "doc-abstract" ["section"],
    concrete "doc-acknowledgments" ["landmark"],
    concrete "doc-afterword" ["landmark"],
    concrete "doc-appendix" ["landmark"],
    concrete "doc-backlink" ["link"],
    concrete "doc-biblioentry" ["listitem"],
    concrete "doc-bibliography" ["landmark"],
    concrete "doc-biblioref" ["link"],
    concrete "doc-chapter" ["landmark"],
    concrete "doc-colophon" ["section"],
    concrete "doc-conclusion" ["landmark"],
    concrete "doc-cover" ["img"],
    concrete "doc-credit" ["section"],
    concrete "doc-credits" ["landmark"],
    concrete "doc-dedication" ["section"],
    concrete "doc-endnote" ["listitem"],
    concrete "doc-endnotes" ["landmark"],
    concrete "doc-epigraph" ["section"],
    concrete "doc-epilogue" ["landmark"],
    concrete "doc-errata" ["landmark"],
    concrete "doc-example" ["section"],
    concrete "doc-footnote" ["section"],
    concrete "doc-foreword" ["landmark"],
    concrete "doc-glossary" ["landmark"],
    concrete "doc-glossref" ["link"],
    concrete "doc-index" ["navigation"],
    concrete "doc-introduction" ["landmark"],
    concrete "doc-noteref" ["link"],
    concrete "doc-notice" ["note"],
    concrete "doc-pagebreak" ["separator"],
    concrete "doc-pagelist" ["navigation"],
    concrete "doc-part" ["landmark"],
    concrete "doc-preface" ["landmark"],
    concrete "doc-prologue" ["landmark"],
    concrete "doc-pullquote" ["none"],
    concrete "doc-qna" ["section"],
    concrete "doc-subtitle" ["sectionhead"],
    concrete "doc-tip" ["note"],
    concrete "doc-toc" ["navigation"],
    concrete "document" ["structure"],
    concrete "feed" ["list"],
    concrete "figure" ["section"],
    concrete "form" ["landmark"],
    concrete "grid" ["composite", "table"],
    concrete "gridcell" ["cell", "widget"],
    concrete "group" ["section"],
    concrete "heading" ["sectionhead"],
    concrete "img" ["section"],
    abstract "input" ["widget"],
    abstract "landmark" ["region"],
    concrete "link" ["command"],
    concrete "list" ["section"],
    concrete "listbox" ["select"],
    concrete "listitem" ["section"],
    concrete "log" ["section"],
    concrete "main" ["landmark"],
    concrete "marquee" ["section"],
    concrete "math" ["section"],
    concrete "menu" ["select"],
    concrete "menubar" ["menu"],
    concrete "menuitem" ["command"],
    concrete "menuitemcheckbox" ["checkbox", "menuitem"],
    concrete "menuitemradio" ["menuitemcheckbox", "radio"],
    concrete "navigation" ["landmark"],
    concrete "none" ["structure"],
    concrete "note" ["section"],
    concrete "option" ["input"],
    concrete "presentation" ["structure"],
    concrete "progressbar" ["range"],
    concrete "radio" ["input"],
    concrete "radiogroup" ["select"],
    abstract "range" ["widget"],
    concrete "region" ["landmark"],
    abstract "roletype" [],
    concrete "row" ["group", "widget"],
    concrete "rowgroup" ["structure"],
    concrete "rowheader" ["cell", "gridcell", "sectionhead"],
    concrete "scrollbar" ["range"],
    concrete "search" ["landmark"],
    concrete "searchbox" ["textbox"],
    abstract "section" ["structure"],
    abstract "sectionhead" ["structure"],
    abstract "select" ["composite", "group"],
    concrete "separator" ["structure", "widget"],
    concrete "slider" ["input", "range"],
    concrete "spinbutton" ["composite", "input", "range"],
    concrete "status" ["section"],
    abstract "structure" ["roletype"],
    concrete "switch" ["checkbox"],
    concrete "tab" ["sectionhead", "widget"],
    concrete "table" ["section"],
    concrete "tablist" ["composite"],
    concrete "tabpanel" ["section"],
    concrete "term" ["section"],
    concrete "textbox" ["input"],
    concrete "timer" ["status"],
    concrete "toolbar" ["group"],
    concrete "tooltip" ["section"],
    concrete "tree" ["select"],
    concrete "treegrid" ["grid", "tree"],
    concrete "treeitem" ["listitem", "option"],
    abstract "widget" ["roletype"],
    abstract "window" ["roletype"]]

/-- The registry of the standard roles. -/
def Registry.standard : Registry :=
  .ofEntries standardEntries

end RoleAudit.Role
