/-!
# Fixed texts

What the program prints about itself and the text that it shows when no file is given.
-/
namespace JsxView

/-- Lines joined to one text, each of them ended. -/
def unlines (lines : List String) : List Char :=
  lines.flatMap fun line => line.toList ++ ['\n']

def versionText : List Char :=
  unlines ["codeviz 0.1.0"]

def usageText : List Char :=
  unlines
   ["codeviz 0.1.0 - terminal code visualizer",
    "",
    "Usage: codeviz [OPTIONS] [FILE]",
    "",
    "Options:",
    "  -h, --help     Show this help message",
    "  -V, --version  Show version information",
    "      --html     Print the highlighted page as HTML and exit",
    "      --stats    Print code statistics and exit",
    "      --chained  Use the ordered substitution highlighter",
    "",
    "Key bindings:",
    "  C-y            Copy code to clipboard",
    "  C-s            Download as code.js",
    "  C-e            Export highlighted view as code.html",
    "  C-t            Cycle theme (Dark, Light, Monokai)",
    "  M-1, M-2, M-3  Select Dark, Light or Monokai",
    "  C-l            Toggle line numbers",
    "  M-+, M--       Font size up / down",
    "  M-0            Reset font size",
    "  C-p, click     Pin or unpin a line",
    "  Esc            Dismiss notice",
    "  C-q            Quit",
    "",
    "Settings are read from ~/.codeviz.toml"]

/-- The text that is shown when no file is given. -/
def welcomeText : List Char :=
  (unlines
   ["// Welcome to React Code Visualizer",
    "import React, \x7b useState, useEffect \x7d from 'react';",
    "",
    "const ExampleComponent = () => \x7b",
    "  const [count, setCount] = useState(0);",
    "  const [isVisible, setIsVisible] = useState(true);",
    "",
    "  // Effect hook for side effects",
    "  useEffect(() => \x7b",
    "    document.title = `Count: $\x7bcount\x7d`;",
    "  \x7d, [count]);",
    "",
    "  const handleIncrement = () => \x7b",
    "    setCount(prev => prev + 1);",
    "  \x7d;",
    "",
    "  const handleDecrement = () => \x7b",
    "    setCount(prev => prev - 1);",
    "  \x7d;",
    "",
    "  return (",
    "    <div className=\"container\">",
    "      <h1>Counter App</h1>",
    "      \x7bisVisible && (",
    "        <div className=\"counter-display\">",
    "          <p>Current count: \x7bcount\x7d</p>",
    "          <button onClick=\x7bhandleIncrement\x7d>+</button>",
    "          <button onClick=\x7bhandleDecrement\x7d>-</button>",
    "        </div>",
    "      )\x7d",
    "      <button onClick=\x7b() => setIsVisible(!isVisible)\x7d>",
    "        Toggle Visibility",
    "      </button>",
    "    </div>",
    "  );",
    "\x7d;",
    "",
    "export default ExampleComponent;"]).dropLast

end JsxView
