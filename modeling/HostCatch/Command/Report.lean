import HostCatch.Text.Display
import HostCatch.Command.Options

namespace HostCatch

namespace Wrapped

/-- The line on one wrapped import. -/
def line (display : Display) (w : Wrapped) : String :=
  let target := s!"func {w.wrapper}" ++ if w.existing then " (existing)" else ""
  "  " ++ display.render (importText w.module w.name) ++ " -> " ++ display.render target ++ "\n"

end Wrapped

/-- What was done to a module, for the reader. -/
def Report.text (display : Display) (o : Options) (r : Report) : String :=
  let heading := display.title ++ s!" {o.input} -> {o.output}\n"
  if r.wrapped = [] then heading ++ "No imports matched; module written unchanged.\n"
  else
    let tagLine :=
      match r.tag with
      | none => ""
      | some tag => s!"Tag: {tagModule}.{tagName} (tag {tag})\n"
    heading ++ s!"Strategy: {display.render r.strategy.text}\n" ++ tagLine ++ "Wrapped imports:\n"
      ++ String.join (r.wrapped.map (Wrapped.line display))
      ++ s!"Rewritten call sites: {r.retargeted}\n"

end HostCatch
