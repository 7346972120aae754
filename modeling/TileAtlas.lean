import TileAtlas.Coordinate
import TileAtlas.Path
import TileAtlas.Text.Record
import TileAtlas.Location
import TileAtlas.Area
import TileAtlas.Kind
import TileAtlas.SortedSet
import TileAtlas.Creature
import TileAtlas.Roster
import TileAtlas.TileStore
import TileAtlas.Event
import TileAtlas.Quadtree.Id
import TileAtlas.Quadtree.Leaf
import TileAtlas.Quadtree.Basic
import TileAtlas.Quadtree.Growth
import TileAtlas.Quadtree.Sweep
import TileAtlas.Atlas.Basic
import TileAtlas.Atlas.Edit
import TileAtlas.Atlas.History
import TileAtlas.Atlas.Alarm
import TileAtlas.Atlas.View
import TileAtlas.Scenario.Filter
import TileAtlas.Scenario.Query
import TileAtlas.Scenario.Command
import TileAtlas.Proofs.Coordinate
import TileAtlas.Proofs.Side
import TileAtlas.Proofs.Path
import TileAtlas.Proofs.Spelling
import TileAtlas.Proofs.Quadtree.Chart
import TileAtlas.Proofs.Quadtree.Growth
import TileAtlas.Proofs.Quadtree.Rewriting
import TileAtlas.Proofs.Quadtree.Links
import TileAtlas.Proofs.Quadtree.Contents
import TileAtlas.Proofs.Quadtree.Sweep
import TileAtlas.Proofs.Area
import TileAtlas.Proofs.SortedSet
import TileAtlas.Proofs.Creature
import TileAtlas.Proofs.Roster
import TileAtlas.Proofs.Members
import TileAtlas.Proofs.TileStore
import TileAtlas.Proofs.Atlas.Effect
import TileAtlas.Proofs.Atlas.Topology
import TileAtlas.Proofs.Atlas.Survey
import TileAtlas.Proofs.Atlas.Extent
import TileAtlas.Proofs.Atlas.Tiling
import TileAtlas.Proofs.Atlas.Alarm
import TileAtlas.Proofs.Atlas.Coherence
import TileAtlas.Proofs.Atlas.Tracking
import TileAtlas.Proofs.Atlas.Membership
import TileAtlas.Proofs.Atlas.Finding
import TileAtlas.Proofs.Atlas.Selection
import TileAtlas.Proofs.Quadtree.Leaves
import TileAtlas.Proofs.TileCount
import TileAtlas.Proofs.Atlas.Counting
import TileAtlas.Proofs.Quadtree.Shape
import TileAtlas.Proofs.Atlas.Safety
import TileAtlas.Proofs.Atlas.Lifecycle
import TileAtlas.Proofs.Quadtree.Stems
import TileAtlas.Proofs.Atlas.Interchange
import TileAtlas.Proofs.Atlas.Drift
import TileAtlas.Proofs.Atlas.Capacity
import TileAtlas.Proofs.Log
import TileAtlas.Proofs.Atlas.Chronicle
import TileAtlas.Proofs.Quadtree.Commuting
import TileAtlas.Proofs.Atlas.Moving
import TileAtlas.Proofs.Atlas.Staying
import TileAtlas.Proofs.Atlas.Planting
